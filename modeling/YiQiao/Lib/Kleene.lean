import Mathlib.Data.List.Basic

/-!
# Three-valued conditions

SQL conditions take three values: true, false and unknown. `Expr` builds conditions from atoms with
conjunctions, disjunctions and negation, and `Expr.eval` is Kleene's reading of them, where `none` is
unknown. `Expr.holds` is the ordinary reading. The two agree wherever every atom is known.
-/

namespace YiQiao.Lib.Kleene

/-- Conjunction: one false operand decides it. -/
def and3 : Option Bool → Option Bool → Option Bool
  | some false, _ => some false
  | some true, b => b
  | none, some false => some false
  | none, _ => none

/-- Disjunction: one true operand decides it. -/
def or3 : Option Bool → Option Bool → Option Bool
  | some true, _ => some true
  | some false, b => b
  | none, some true => some true
  | none, _ => none

/-- Negation keeps the unknown value. -/
def not3 (a : Option Bool) : Option Bool := a.map (!·)

@[simp] theorem and3_eq_true {a b : Option Bool} :
    and3 a b = some true ↔ a = some true ∧ b = some true := by
  rcases a with _ | _ | _ <;> rcases b with _ | _ | _ <;> simp [and3]

@[simp] theorem or3_eq_true {a b : Option Bool} :
    or3 a b = some true ↔ a = some true ∨ b = some true := by
  rcases a with _ | _ | _ <;> rcases b with _ | _ | _ <;> simp [or3]

@[simp] theorem or3_eq_false {a b : Option Bool} :
    or3 a b = some false ↔ a = some false ∧ b = some false := by
  rcases a with _ | _ | _ <;> rcases b with _ | _ | _ <;> simp [or3]

@[simp] theorem not3_eq_true {a : Option Bool} : not3 a = some true ↔ a = some false := by
  rcases a with _ | _ | _ <;> simp [not3]

@[simp] theorem and3_some (a b : Bool) : and3 (some a) (some b) = some (a && b) := by
  cases a <;> rfl

@[simp] theorem or3_some (a b : Bool) : or3 (some a) (some b) = some (a || b) := by
  cases a <;> rfl

@[simp] theorem not3_some (a : Bool) : not3 (some a) = some (!a) := rfl

@[simp] theorem and3_true_left (b : Option Bool) : and3 (some true) b = b := rfl

theorem and3_assoc (a b c : Option Bool) : and3 (and3 a b) c = and3 a (and3 b c) := by
  rcases a with _ | _ | _ <;> rcases b with _ | _ | _ <;> rcases c with _ | _ | _ <;> rfl

/-- Conditions over atoms of type `α`. -/
inductive Expr (α : Type) where
  | atom (a : α)
  | all (es : List (Expr α))
  | any (es : List (Expr α))
  | neg (e : Expr α)

namespace Expr

variable {α : Type}

mutual
/-- The three-valued reading under the atoms' values `v`. -/
def eval (v : α → Option Bool) : Expr α → Option Bool
  | .atom a => v a
  | .all es => evalAll v es
  | .any es => evalAny v es
  | .neg e => not3 (eval v e)

def evalAll (v : α → Option Bool) : List (Expr α) → Option Bool
  | [] => some true
  | e :: es => and3 (eval v e) (evalAll v es)

def evalAny (v : α → Option Bool) : List (Expr α) → Option Bool
  | [] => some false
  | e :: es => or3 (eval v e) (evalAny v es)
end

mutual
/-- The two-valued reading under the atoms' values `b`. -/
def holds (b : α → Bool) : Expr α → Bool
  | .atom a => b a
  | .all es => holdsAll b es
  | .any es => holdsAny b es
  | .neg e => !holds b e

def holdsAll (b : α → Bool) : List (Expr α) → Bool
  | [] => true
  | e :: es => holds b e && holdsAll b es

def holdsAny (b : α → Bool) : List (Expr α) → Bool
  | [] => false
  | e :: es => holds b e || holdsAny b es
end

mutual
/-- The atoms of a condition, from left to right. -/
def atoms : Expr α → List α
  | .atom a => [a]
  | .all es => atomsList es
  | .any es => atomsList es
  | .neg e => atoms e

def atomsList : List (Expr α) → List α
  | [] => []
  | e :: es => atoms e ++ atomsList es
end

/-! ## The value of a group -/

theorem evalAll_eq_true {v : α → Option Bool} {es : List (Expr α)} :
    evalAll v es = some true ↔ ∀ e ∈ es, eval v e = some true := by
  induction es with
  | nil => simp [evalAll]
  | cons e es ih => simp [evalAll, ih]

theorem evalAny_eq_true {v : α → Option Bool} {es : List (Expr α)} :
    evalAny v es = some true ↔ ∃ e ∈ es, eval v e = some true := by
  induction es with
  | nil => simp [evalAny]
  | cons e es ih => simp [evalAny, ih]

theorem evalAny_eq_false {v : α → Option Bool} {es : List (Expr α)} :
    evalAny v es = some false ↔ ∀ e ∈ es, eval v e = some false := by
  induction es with
  | nil => simp [evalAny]
  | cons e es ih => simp [evalAny, ih]

theorem holdsAll_iff {b : α → Bool} {es : List (Expr α)} :
    holdsAll b es = true ↔ ∀ e ∈ es, holds b e = true := by
  induction es with
  | nil => simp [holdsAll]
  | cons e es ih => simp [holdsAll, ih]

theorem holdsAny_iff {b : α → Bool} {es : List (Expr α)} :
    holdsAny b es = true ↔ ∃ e ∈ es, holds b e = true := by
  induction es with
  | nil => simp [holdsAny]
  | cons e es ih => simp [holdsAny, ih]

theorem mem_atomsList {a : α} {es : List (Expr α)} :
    a ∈ atomsList es ↔ ∃ e ∈ es, a ∈ atoms e := by
  induction es with
  | nil => simp [atomsList]
  | cons e es ih => simp [atomsList, ih]

theorem evalAll_append (v : α → Option Bool) (es fs : List (Expr α)) :
    evalAll v (es ++ fs) = and3 (evalAll v es) (evalAll v fs) := by
  induction es with
  | nil => rfl
  | cons e es ih => rw [List.cons_append, evalAll, evalAll, ih, and3_assoc]

theorem atomsList_append (es fs : List (Expr α)) :
    atomsList (es ++ fs) = atomsList es ++ atomsList fs := by
  induction es with
  | nil => rfl
  | cons e es ih => rw [List.cons_append, atomsList, atomsList, ih, List.append_assoc]

/-! ## Agreement of the two readings -/

mutual
/-- Where every atom is known, the three-valued reading is the two-valued one. -/
theorem eval_of_known {v : α → Option Bool} {b : α → Bool} :
    (e : Expr α) → (∀ a ∈ atoms e, v a = some (b a)) → eval v e = some (holds b e)
  | .atom a, h => by simpa [eval, holds] using h a (by simp [atoms])
  | .all es, h => by
      simpa only [eval, holds] using evalAll_of_known es (by simpa only [atoms] using h)
  | .any es, h => by
      simpa only [eval, holds] using evalAny_of_known es (by simpa only [atoms] using h)
  | .neg e, h => by
      simp only [eval, holds, eval_of_known e (by simpa only [atoms] using h), not3_some]

theorem evalAll_of_known {v : α → Option Bool} {b : α → Bool} :
    (es : List (Expr α)) → (∀ a ∈ atomsList es, v a = some (b a)) →
    evalAll v es = some (holdsAll b es)
  | [], _ => rfl
  | e :: es, h => by
      have he := eval_of_known (b := b) e (fun a ha => h a (by simp [atomsList, ha]))
      have hes := evalAll_of_known (b := b) es (fun a ha => h a (by simp [atomsList, ha]))
      simp only [evalAll, holdsAll, he, hes, and3_some]

theorem evalAny_of_known {v : α → Option Bool} {b : α → Bool} :
    (es : List (Expr α)) → (∀ a ∈ atomsList es, v a = some (b a)) →
    evalAny v es = some (holdsAny b es)
  | [], _ => rfl
  | e :: es, h => by
      have he := eval_of_known (b := b) e (fun a ha => h a (by simp [atomsList, ha]))
      have hes := evalAny_of_known (b := b) es (fun a ha => h a (by simp [atomsList, ha]))
      simp only [evalAny, holdsAny, he, hes, or3_some]
end

end Expr

end YiQiao.Lib.Kleene
