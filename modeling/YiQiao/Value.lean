import Mathlib.Data.List.Nodup
import Mathlib.Data.List.DropRight
import Mathlib.Algebra.Order.Ring.Unbundled.Rat
import Mathlib.Order.WithBot
import YiQiao.Lib.Dict

/-!
# Values

The JSON values that requests carry and payloads store, with the renderings the program relies on:
Python's `str`, truth and `float`, and PostgreSQL's `->>` text. A number is kept as its decimal
digits: `num 10 0` is the integer `10` and `num 100 1` the float `10.0`.

`Platform` collects what Python and PostgreSQL decide outside the repository.
-/

namespace YiQiao

/-- A Python exception the modelled functions raise. -/
inductive PyError where
  | valueError (message : String)
  | attributeError
  | typeError
  | overflowError
  | databaseError
  | validationError (code : String)
  | llmError
  | providerError
  deriving DecidableEq, Repr

inductive Value where
  | null
  | bool (b : Bool)
  | num (mantissa : Int) (scale : Nat)
  | str (s : String)
  | list (xs : List Value)
  | dict (d : List (String × Value))

/-- The entries of a JSON object, in order. -/
abbrev Entries := List (String × Value)

/-- The `payload` column of a row. -/
abbrev Payload := Entries

/-- The numbers a comparison sees, ordered as PostgreSQL orders them: below every finite number
stands `-Infinity`, above them `Infinity`, and `NaN` above all. -/
def Number : Type := WithTop (WithTop (WithBot ℚ))

instance : LinearOrder Number := inferInstanceAs (LinearOrder (WithTop (WithTop (WithBot ℚ))))

def Number.finite (q : ℚ) : Number :=
  (((q : WithBot ℚ) : WithTop (WithBot ℚ)) : WithTop (WithTop (WithBot ℚ)))

structure Platform where
  /-- Python's `str` of a list or a dict. -/
  containerStr : Value → String
  /-- The `jsonb` text of an array or an object. -/
  containerJson : Value → String
  /-- Python's `str` of a float. -/
  floatStr : Int → Nat → String
  /-- The `jsonb` text of a float. -/
  floatJson : Int → Nat → String
  /-- Python's `float` of a number; an integer may be too large. -/
  toDouble : Int → Nat → Option Number
  /-- Python's `float` of a text. -/
  parseFloat : String → Option Number
  /-- PostgreSQL's `text::numeric`, as the comparison with a float reads it. -/
  castNumeric : String → Option Number
  /-- The case folding of `ILIKE`. -/
  foldCase : Char → Char

/-- A platform that reads the texts of integers and folds ASCII letters. -/
def Platform.ascii : Platform where
  containerStr := fun _ => ""
  containerJson := fun _ => ""
  floatStr := fun _ _ => ""
  floatJson := fun _ _ => ""
  toDouble := fun m s => some (.finite (m / 10 ^ s))
  parseFloat := fun s => s.toInt?.map fun n => .finite n
  castNumeric := fun s => s.toInt?.map fun n => .finite n
  foldCase := Char.toLower

/-! ## Characters and digits -/

/-- `str.isspace` on one character. -/
def isSpace (c : Char) : Bool :=
  let n := c.toNat
  (9 ≤ n && n ≤ 13) || (28 ≤ n && n ≤ 32) || n == 0x85 || n == 0xa0 || n == 0x1680 ||
    (0x2000 ≤ n && n ≤ 0x200a) || n == 0x2028 || n == 0x2029 || n == 0x202f || n == 0x205f ||
    n == 0x3000

/-- `str.strip`. -/
def strip (s : String) : String :=
  String.ofList ((s.toList.dropWhile isSpace).reverse.dropWhile isSpace).reverse

theorem dropWhile_none {α : Type} {p : α → Bool} {l : List α} (h : ∀ a ∈ l, p a = false) : l.dropWhile p = l := by
  cases l with
  | nil => rfl
  | cons a l => simp [h a List.mem_cons_self]

theorem strip_of_no_space {s : String} (h : ∀ c ∈ s.toList, isSpace c = false) : strip s = s := by
  rw [strip, dropWhile_none h, dropWhile_none (by simpa using h), List.reverse_reverse, String.ofList_toList]

theorem strip_strip (t : String) : strip (strip t) = strip t := by
  have hstrip : ∀ u, strip u = String.ofList ((u.toList.dropWhile isSpace).rdropWhile isSpace) := fun _ => rfl
  have hfront : (((t.toList.dropWhile isSpace).rdropWhile isSpace).dropWhile isSpace) =
      (t.toList.dropWhile isSpace).rdropWhile isSpace := by
    rw [List.dropWhile_eq_self_iff]
    intro hlength
    have hprefix := List.rdropWhile_prefix isSpace (t.toList.dropWhile isSpace)
    have hlong := hlength.trans_le hprefix.length_le
    have hhead := hprefix.getElem (i := 0) hlength
    rw [hhead]
    exact List.dropWhile_get_zero_not isSpace t.toList hlong
  rw [hstrip (strip t), hstrip t, String.toList_ofList, hfront, List.rdropWhile_idempotent]

/-- The decimal digits of an integer. -/
def intText (n : Int) : String :=
  String.ofList ((if n < 0 then ['-'] else []) ++ Nat.toDigits 10 n.natAbs)

namespace Value

/-- `bool(value)`. -/
def truthy : Value → Bool
  | null => false
  | bool b => b
  | num m _ => m != 0
  | str s => s != ""
  | list xs => !xs.isEmpty
  | dict d => !d.isEmpty

/-- `value == "*"`. -/
def isStar : Value → Bool
  | str s => s == "*"
  | _ => false

/-- `isinstance(value, dict)`. -/
def isDict : Value → Bool
  | dict _ => true
  | _ => false

/-- `str(value)`. -/
def pyStr (P : Platform) : Value → String
  | null => "None"
  | bool b => if b then "True" else "False"
  | num n 0 => intText n
  | num m s => P.floatStr m s
  | str s => s
  | v => P.containerStr v

/-- The text `payload ->> key` yields for a stored value; a JSON null yields NULL. -/
def sqlText (P : Platform) : Value → Option String
  | null => none
  | bool b => some (if b then "true" else "false")
  | num n 0 => some (intText n)
  | num m s => some (P.floatJson m s)
  | str s => some s
  | v => some (P.containerJson v)

/-- `float(value)`. -/
def toFloat (P : Platform) : Value → Except PyError Number
  | bool b => .ok (.finite (if b then 1 else 0))
  | num m s => match P.toDouble m s with
    | some q => .ok q
    | none => .error .overflowError
  | str s => match P.parseFloat s with
    | some q => .ok q
    | none => .error (.valueError "could not convert string to float")
  | _ => .error .typeError

/-- The items `for v in value` visits. -/
def items : Value → Except PyError (List Value)
  | list xs => .ok xs
  | str s => .ok (s.toList.map fun c => str (String.singleton c))
  | dict d => .ok (d.map fun e => str e.1)
  | _ => .error .typeError

end Value

/-! ## Well-formed values -/

mutual
/-- Every object inside the value has each key once. -/
def Value.WF : Value → Prop
  | .list xs => Value.WFList xs
  | .dict d => Lib.Dict.Unique d ∧ Value.WFEntries d
  | _ => True

def Value.WFList : List Value → Prop
  | [] => True
  | v :: vs => Value.WF v ∧ Value.WFList vs

def Value.WFEntries : List (String × Value) → Prop
  | [] => True
  | (_, v) :: d => Value.WF v ∧ Value.WFEntries d
end

theorem Value.WFList.mem {vs : List Value} (h : Value.WFList vs) {v : Value} (hv : v ∈ vs) : v.WF := by
  induction vs with
  | nil => cases hv
  | cons w ws ih =>
      rcases List.mem_cons.mp hv with rfl | hv
      · exact h.1
      · exact ih h.2 hv

theorem Value.WFEntries.mem {d : Entries} (h : Value.WFEntries d) {e : String × Value} (he : e ∈ d) :
    e.2.WF := by
  induction d with
  | nil => cases he
  | cons e' d ih =>
      rcases List.mem_cons.mp he with rfl | he
      · exact h.1
      · exact ih h.2 he

theorem Value.wfEntries_of_mem {d : Entries} (h : ∀ e ∈ d, e.2.WF) : Value.WFEntries d := by
  induction d with
  | nil => trivial
  | cons e d ih =>
      exact ⟨h e List.mem_cons_self, ih fun e' he' => h e' (List.mem_cons_of_mem _ he')⟩

/-- Assigning a well-formed value keeps an object well-formed. -/
theorem Value.WF.set {d : Entries} (h : (Value.dict d).WF) (k : String) {v : Value} (hv : v.WF) :
    (Value.dict (Lib.Dict.set k v d)).WF := by
  refine ⟨h.1.set k v, Value.wfEntries_of_mem fun e he => ?_⟩
  rcases Lib.Dict.mem_set he with rfl | he
  · exact hv
  · exact h.2.mem he

/-- A JSON object as a client or a store can hold it: no key stands twice at any depth. -/
structure Object where
  entries : Entries
  wf : (Value.dict entries).WF

/-! ## Reading a payload -/

namespace Payload

/-- `payload ->> key`. -/
def text (P : Platform) (payload : Payload) (key : String) : Option String :=
  (payload.lookup key).bind (Value.sqlText P)

/-- `payload.get(key)`. -/
def get (payload : Payload) (key : String) : Value := (payload.lookup key).getD .null

end Payload

end YiQiao
