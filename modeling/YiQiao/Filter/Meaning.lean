import Mathlib.Data.List.Infix
import YiQiao.Filter.Conditions

/-!
# The meaning of a search filter

What the documentation of `Memory.search` gives each form of a filter to mean, and the constraints a
filter is made of. Values are compared by their texts, numbers after conversion. The last word on a
key is what remains of a conjunction when later constraints replace earlier ones on the same key.
-/

namespace YiQiao.Filters

open Lib Lib.Kleene

/-! ## Constraints -/

/-- One documented constraint: a plain value on a key, or one operator on it. -/
structure Constraint where
  key : String
  op : Option String
  value : Value

/-- The constraints of one filter entry that is not a logical one. -/
def constraintsOf (e : String × Value) : List Constraint :=
  match e.2 with
  | .dict ops => ops.map fun o => ⟨e.1, some o.1, o.2⟩
  | v => [⟨e.1, none, v⟩]

/-- The documented meaning of an operator on a stored text. -/
def operatorMeaning (P : Platform) (text op : String) (value : Value) : Bool :=
  let number (test : Cmp) : Bool := match P.castNumeric text, value.toFloat P with
    | some a, .ok b => test.holds a b
    | _, _ => false
  let listed : Bool := match value.items with
    | .ok vs => (vs.map (Value.pyStr P)).contains text
    | .error _ => false
  match op with
  | "eq" => text == value.pyStr P
  | "ne" => text != value.pyStr P
  | "gt" => number .gt
  | "gte" => number .gte
  | "lt" => number .lt
  | "lte" => number .lte
  | "in" => listed
  | "nin" => !listed
  | "contains" => decide ((value.pyStr P).toList <:+: text.toList)
  | "icontains" =>
      decide ((value.pyStr P).toList.map P.foldCase <:+: text.toList.map P.foldCase)
  | _ => false

/-- The documented meaning of a plain value on a stored text: a wildcard admits any, a list its
members, another value an exact match. -/
def plainMeaning (P : Platform) (text : String) : Value → Bool
  | .list vs => (vs.map (Value.pyStr P)).contains text
  | .bool b => text == if b then "true" else "false"
  | v => v.isStar || text == v.pyStr P

namespace Constraint

/-- The payload meets the constraint. -/
def holds (P : Platform) (payload : Payload) (c : Constraint) : Bool :=
  match payload.text P c.key, c.op with
  | none, _ => false
  | some text, some op => operatorMeaning P text op c.value
  | some text, none => plainMeaning P text c.value

/-- A later constraint takes the place of an earlier one: they are on one key and not two
different operators. -/
def replaces (later earlier : Constraint) : Bool :=
  later.key == earlier.key && (later.op.isNone || earlier.op.isNone || later.op == earlier.op)

/-- The payload has the key of the constraint, as a text or a number, and it is a number where the
constraint compares numbers. -/
def known (P : Platform) (payload : Payload) (c : Constraint) : Prop :=
  ∃ text, payload.text P c.key = some text ∧
    (c.op ∈ [some "gt", some "gte", some "lt", some "lte"] → (P.castNumeric text).isSome)

end Constraint

/-! ## The documented meaning -/

mutual
/-- The documented meaning of a filter, whatever is nested in it. -/
def meaning (P : Platform) (payload : Payload) : List (String × Value) → Bool
  | [] => true
  | (key, value) :: rest =>
      (if key = "AND" then (branchMeanings P payload value).all id
        else if key = "OR" then (branchMeanings P payload value).any id
        else if key = "NOT" then !(branchMeanings P payload value).any id
        else (constraintsOf (key, value)).all (Constraint.holds P payload)) &&
      meaning P payload rest

def branchMeanings (P : Platform) (payload : Payload) : Value → List Bool
  | .list vs => branchListMeanings P payload vs
  | _ => []

def branchListMeanings (P : Platform) (payload : Payload) : List Value → List Bool
  | [] => []
  | v :: vs => branchMeaning P payload v :: branchListMeanings P payload vs

def branchMeaning (P : Platform) (payload : Payload) : Value → Bool
  | .dict d => meaning P payload d
  | _ => false
end

/-! ## The last word on a key -/

/-- The constraints no later one replaces. -/
def lastWord : List Constraint → List Constraint
  | [] => []
  | c :: cs => if cs.any (·.replaces c) then lastWord cs else c :: lastWord cs

theorem mem_lastWord_append {c : Constraint} {cs ds : List Constraint} :
    c ∈ lastWord (cs ++ ds) ↔
      (c ∈ lastWord cs ∧ ds.any (·.replaces c) = false) ∨ c ∈ lastWord ds := by
  induction cs with
  | nil => simp [lastWord]
  | cons b cs ih =>
      simp only [List.cons_append, lastWord, List.any_append, Bool.or_eq_true]
      by_cases hcs : cs.any (·.replaces b) = true
      · simp only [hcs, true_or, ↓reduceIte, ih]
      · by_cases hds : ds.any (·.replaces b) = true
        · simp only [hcs, hds, or_true, ↓reduceIte, ih, List.mem_cons, Bool.false_eq_true]
          constructor
          · rintro (⟨h, h'⟩ | h)
            · exact .inl ⟨.inr h, h'⟩
            · exact .inr h
          · rintro (⟨rfl | h, h'⟩ | h)
            · simp [hds] at h'
            · exact .inl ⟨h, h'⟩
            · exact .inr h
        · simp only [hcs, hds, or_self, ↓reduceIte, ih, List.mem_cons, Bool.false_eq_true]
          rw [Bool.not_eq_true] at hds
          constructor
          · rintro (rfl | ⟨h, h'⟩ | h)
            · exact .inl ⟨.inl rfl, hds⟩
            · exact .inl ⟨.inr h, h'⟩
            · exact .inr h
          · rintro (⟨rfl | h, h'⟩ | h)
            · exact .inl rfl
            · exact .inr (.inl ⟨h, h'⟩)
            · exact .inr (.inr h)

theorem lastWord_subset {c : Constraint} {cs : List Constraint} (h : c ∈ lastWord cs) : c ∈ cs := by
  induction cs with
  | nil => simp [lastWord] at h
  | cons b cs ih =>
      rw [lastWord] at h
      split at h
      · exact List.mem_cons_of_mem _ (ih h)
      · rcases List.mem_cons.mp h with rfl | h
        · exact List.mem_cons_self
        · exact List.mem_cons_of_mem _ (ih h)

/-- Only the constraints on its own key decide whether a constraint stays. -/
theorem mem_lastWord_filter {c : Constraint} {cs : List Constraint} :
    c ∈ lastWord (cs.filter fun d => d.key == c.key) ↔ c ∈ lastWord cs := by
  induction cs with
  | nil => rfl
  | cons b cs ih =>
      rw [List.filter_cons]
      by_cases hkey : b.key = c.key
      · have hany : (cs.filter fun d => d.key == c.key).any (·.replaces b) = cs.any (·.replaces b) := by
          rw [List.any_filter]
          congr 1
          funext d
          by_cases hd : d.key = c.key <;> simp [Constraint.replaces, hd, hkey]
        rw [if_pos (by simpa using hkey), lastWord, lastWord, hany]
        split
        · exact ih
        · rw [List.mem_cons, List.mem_cons, ih]
      · have hne : c ≠ b := fun h => hkey (by rw [h])
        rw [if_neg (by simpa using hkey), ih, lastWord]
        split
        · rfl
        · rw [List.mem_cons, or_iff_right hne]

/-- No constraint replaces an earlier one. -/
def NoClash (cs : List Constraint) : Prop := cs.Pairwise fun b c => c.replaces b = false

theorem lastWord_of_noClash {cs : List Constraint} (h : NoClash cs) : lastWord cs = cs := by
  induction cs with
  | nil => rfl
  | cons b cs ih =>
      obtain ⟨hb, hcs⟩ := List.pairwise_cons.mp h
      have hany : cs.any (·.replaces b) = false := by simpa using hb
      rw [lastWord, hany, ih hcs]
      simp

theorem lastWord_eq_nil {cs : List Constraint} : lastWord cs = [] ↔ cs = [] := by
  induction cs with
  | nil => simp [lastWord]
  | cons b cs ih =>
      rw [lastWord]
      split
      · rename_i h
        obtain ⟨c, hc, _⟩ := List.any_eq_true.mp h
        simp only [reduceCtorEq, iff_false]
        exact fun h => List.ne_nil_of_mem hc (ih.mp h)
      · simp

/-- Every constrained key keeps a constraint. -/
theorem exists_lastWord {c : Constraint} {cs : List Constraint} (h : c ∈ cs) :
    ∃ c' ∈ lastWord cs, c'.key = c.key := by
  induction cs generalizing c with
  | nil => cases h
  | cons b cs ih =>
      rw [lastWord]
      rcases List.mem_cons.mp h with rfl | h
      · split
        · rename_i hany
          obtain ⟨d, hd, hr⟩ := List.any_eq_true.mp hany
          obtain ⟨c', hc', hkey⟩ := ih hd
          simp only [Constraint.replaces, Bool.and_eq_true, beq_iff_eq] at hr
          exact ⟨c', hc', hkey.trans hr.1⟩
        · exact ⟨c, List.mem_cons_self, rfl⟩
      · obtain ⟨c', hc', hkey⟩ := ih h
        split
        · exact ⟨c', hc', hkey⟩
        · exact ⟨c', List.mem_cons_of_mem _ hc', hkey⟩

/-! ## The effective meaning -/

/-- The constraints of one listed condition. -/
def branchConstraints : Value → List Constraint
  | .dict d => d.flatMap constraintsOf
  | _ => []

/-- The constraints of each branch of a logical operator. -/
def branches : Value → List (List Constraint)
  | .list vs => vs.map branchConstraints
  | _ => []

/-- The constraints a filter conjoins: its plain entries and the branches of `AND`. -/
def conjuncts (filters : Entries) : List Constraint :=
  filters.flatMap fun e =>
    if e.1 = "AND" then (branches e.2).flatten
    else if e.1 = "OR" ∨ e.1 = "NOT" then []
    else constraintsOf e

/-- The branches of `OR` or `NOT`. -/
def alternatives (key : String) (filters : Entries) : List (List Constraint) :=
  (filters.lookup key).elim [] branches

/-- Some group meets `r`. A group without constraints does not count, and no group asks nothing. -/
def someGroup (r : List Constraint → Bool) (groups : List (List Constraint)) : Bool :=
  (groups.filter fun g => !g.isEmpty).isEmpty || (groups.filter fun g => !g.isEmpty).any r

/-- No group with constraints meets `r`. -/
def noGroup (r : List Constraint → Bool) (groups : List (List Constraint)) : Bool :=
  !(groups.filter fun g => !g.isEmpty).any r

/-- The payload meets the last words of a conjunction. -/
def meets (P : Platform) (payload : Payload) (cs : List Constraint) : Bool :=
  (lastWord cs).all (Constraint.holds P payload)

/-- A filter read as its documentation reads it, except that the last word on a key counts and
branches without constraints are passed over. -/
def lastWordMeaning (P : Platform) (payload : Payload) (filters : Entries) : Bool :=
  meets P payload (conjuncts filters) &&
    someGroup (meets P payload) (alternatives "OR" filters) &&
    noGroup (meets P payload) (alternatives "NOT" filters)

/-! ## Documented filters -/

/-- The names a field of a filter cannot have. -/
def reserved : List String := ["AND", "OR", "NOT", "$or", "$not"]

/-- Every branch of the value is a dictionary of fields. -/
def BranchesOfFields (v : Value) : Prop :=
  ∀ vs, v = .list vs → ∀ b ∈ vs, ∃ d, b = .dict d ∧ ∀ e ∈ d, e.1 ∉ reserved

/-- A filter whose logical operators are not nested and whose other keys are field names. -/
def Documented (filters : Entries) : Prop :=
  ∀ e ∈ filters,
    (e.1 ∈ logicalKeys → BranchesOfFields e.2) ∧ (e.1 ∉ logicalKeys → e.1 ∉ reserved)

end YiQiao.Filters
