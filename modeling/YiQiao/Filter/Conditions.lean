import YiQiao.Filter.Process
import YiQiao.Lib.Kleene
import YiQiao.Lib.Like

/-!
# Compiled filters

`_build_filter_conditions` translates a processed filter dictionary into SQL conditions on the
payload, which the store joins with `AND`. A condition on an absent key, or on a JSON null, is
unknown. A numeric comparison on a text that is no number fails.
-/

namespace YiQiao.Filters

open Lib Lib.Kleene

/-! ## The tests of a compiled filter -/

inductive Cmp where
  | gt | gte | lt | lte
  deriving DecidableEq, Repr

namespace Cmp

def holds : Cmp → Number → Number → Bool
  | gt, a, b => decide (b < a)
  | gte, a, b => decide (b ≤ a)
  | lt, a, b => decide (a < b)
  | lte, a, b => decide (a ≤ b)

end Cmp

/-- The templates of `OPERATOR_SQL_MAP` and of the plain conditions, with their parameters. -/
inductive Test where
  /-- `payload ? key` -/
  | hasKey (key : String)
  /-- `payload->>key = text` -/
  | eq (key text : String)
  /-- `payload->>key != text` -/
  | ne (key text : String)
  /-- `(payload->>key)::numeric > number` and its siblings -/
  | compare (cmp : Cmp) (key : String) (number : Number)
  /-- `payload->>key = ANY(texts)` -/
  | inList (key : String) (texts : List String)
  /-- `payload->>key LIKE pattern ESCAPE '\'` -/
  | like (key : String) (pattern : List Char)
  /-- `payload->>key ILIKE pattern ESCAPE '\'` -/
  | ilike (key : String) (pattern : List Char)

/-- A SQL condition. -/
abbrev Cond := Expr Test

/-- `f"%{escaped}%"`. -/
def containsPattern (text : String) : List Char := '%' :: (Like.escape text.toList ++ ['%'])

/-! ## The builder -/

/-- The condition one operator compiles to. -/
def buildOperator (P : Platform) (key op : String) (value : Value) : Except PyError Cond :=
  match op with
  | "eq" => .ok (.atom (.eq key (value.pyStr P)))
  | "ne" => .ok (.atom (.ne key (value.pyStr P)))
  | "gt" => do pure (.atom (.compare .gt key (← value.toFloat P)))
  | "gte" => do pure (.atom (.compare .gte key (← value.toFloat P)))
  | "lt" => do pure (.atom (.compare .lt key (← value.toFloat P)))
  | "lte" => do pure (.atom (.compare .lte key (← value.toFloat P)))
  | "in" => do pure (.atom (.inList key ((← value.items).map (Value.pyStr P))))
  | "nin" => do pure (.neg (.atom (.inList key ((← value.items).map (Value.pyStr P)))))
  | "contains" => .ok (.atom (.like key (containsPattern (value.pyStr P))))
  | "icontains" => .ok (.atom (.ilike key (containsPattern (value.pyStr P))))
  | _ => .error (.valueError s!"Unsupported filter operator: {op}")

/-- The conditions of one key that is not a logical group. -/
def buildField (P : Platform) (key : String) (value : Value) : Except PyError (List Cond) :=
  match value with
  | .dict ops => ops.mapM fun o => buildOperator P key o.1 o.2
  | .list vs => .ok [.atom (.inList key (vs.map (Value.pyStr P)))]
  | .bool b => .ok [.atom (.eq key (if b then "true" else "false"))]
  | v => if v.isStar then .ok [.atom (.hasKey key)] else .ok [.atom (.eq key (v.pyStr P))]

/-- The groups that contribute a condition: an empty one is left out. -/
def nonEmptyGroups (groups : List (List Cond)) : List Cond :=
  (groups.filter fun g => !g.isEmpty).map .all

/-- The condition of `$or`. -/
def orCondition (groups : List (List Cond)) : List Cond :=
  if (nonEmptyGroups groups).isEmpty then [] else [.any (nonEmptyGroups groups)]

/-- The condition of `$not`. -/
def notCondition (groups : List (List Cond)) : List Cond :=
  if (nonEmptyGroups groups).isEmpty then [] else [.neg (.any (nonEmptyGroups groups))]

mutual
/-- `_build_filter_conditions` on a dictionary. -/
def buildFilterConditions (P : Platform) : List (String × Value) → Except PyError (List Cond)
  | [] => .ok []
  | (key, value) :: rest => do
      let conds ← buildEntry P key value
      pure (conds ++ (← buildFilterConditions P rest))

/-- One iteration of its loop. -/
def buildEntry (P : Platform) (key : String) (value : Value) : Except PyError (List Cond) :=
  if key = "$or" then do pure (orCondition (← buildGroups P value))
  else if key = "$not" then do pure (notCondition (← buildGroups P value))
  else buildField P key value

/-- `for or_filter in value`, over what the value of `$or` or `$not` iterates to. -/
def buildGroups (P : Platform) : Value → Except PyError (List (List Cond))
  | .list vs => buildGroupList P vs
  | .str s => if s = "" then .ok [] else .error .attributeError
  | .dict d => if d.all fun e => e.1 = "" then .ok [] else .error .attributeError
  | _ => .error .typeError

def buildGroupList (P : Platform) : List Value → Except PyError (List (List Cond))
  | [] => .ok []
  | v :: vs => do
      let group ← buildGroup P v
      pure (group :: (← buildGroupList P vs))

/-- One group: a falsy one has no conditions, another must be a dictionary. -/
def buildGroup (P : Platform) : Value → Except PyError (List Cond)
  | .dict d => buildFilterConditions P d
  | v => if v.truthy then .error .attributeError else .ok []
end

/-- The conditions a search hands to the store, from the filters the caller gave. -/
def compile (P : Platform) (filters : Entries) : Except PyError (List Cond) := do
  let validated ← validateFilters filters
  let effective ← effectiveFilters validated
  telemetryFilters effective
  buildFilterConditions P effective

/-! ## Reading a condition on a payload -/

namespace Test

/-- The number a stored text is cast to. -/
def numeric (P : Platform) (payload : Payload) (key : String) : Option Number :=
  (payload.text P key).bind P.castNumeric

/-- The value of a test on a payload, `none` where SQL has NULL. -/
def value (P : Platform) (payload : Payload) : Test → Option Bool
  | hasKey key => some (payload.lookup key).isSome
  | eq key text => (payload.text P key).map (· == text)
  | ne key text => (payload.text P key).map (· != text)
  | compare cmp key number => (numeric P payload key).map (cmp.holds · number)
  | inList key texts => (payload.text P key).map (texts.contains ·)
  | like key pattern => (payload.text P key).map fun t => Like.like id pattern t.toList
  | ilike key pattern => (payload.text P key).map fun t => Like.like P.foldCase pattern t.toList

/-- The cast of a numeric test fails on the payload. -/
def fails (P : Platform) (payload : Payload) : Test → Bool
  | compare _ key _ => match payload.text P key with
    | none => false
    | some t => (P.castNumeric t).isNone
  | _ => false

end Test

/-- `cond1 AND cond2 AND ...` is true of the payload, without a failing cast. -/
def selects (P : Platform) (conds : List Cond) (payload : Payload) : Bool :=
  !(Expr.atomsList conds).any (Test.fails P payload) &&
    Expr.evalAll (Test.value P payload) conds == some true

theorem selects_iff {P : Platform} {conds : List Cond} {payload : Payload} :
    selects P conds payload = true ↔
      (∀ t ∈ Expr.atomsList conds, t.fails P payload = false) ∧
        ∀ c ∈ conds, c.eval (Test.value P payload) = some true := by
  rw [selects, Bool.and_eq_true, beq_iff_eq, Expr.evalAll_eq_true]
  simp

end YiQiao.Filters
