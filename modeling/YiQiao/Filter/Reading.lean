import YiQiao.Filter.Meaning
import YiQiao.Lib.Fallible

/-!
# Reading compiled conditions

On a payload that knows the keys, the conditions the builder emits for a dictionary are true exactly
when the payload meets the constraints of the dictionary.
-/

namespace YiQiao.Filters

open Lib Lib.Kleene

variable {P : Platform} {payload : Payload}

/-! ## The truth value of a list of conditions -/

/-- The conditions have the truth value `b` on the payload, and no cast fails. -/
structure Reads (P : Platform) (payload : Payload) (conds : List Cond) (b : Bool) : Prop where
  safe : ∀ t ∈ Expr.atomsList conds, t.fails P payload = false
  value : Expr.evalAll (Test.value P payload) conds = some b

namespace Reads

theorem nil : Reads P payload [] true := ⟨by simp [Expr.atomsList], rfl⟩

theorem singleton {c : Cond} {b : Bool} (hs : ∀ t ∈ c.atoms, t.fails P payload = false)
    (hv : c.eval (Test.value P payload) = some b) : Reads P payload [c] b where
  safe := by simpa [Expr.atomsList] using hs
  value := by
    rw [Expr.evalAll, hv]
    cases b <;> rfl

theorem atom {t : Test} {b : Bool} (hs : t.fails P payload = false)
    (hv : t.value P payload = some b) : Reads P payload [.atom t] b :=
  singleton (by simpa [Expr.atoms] using hs) (by rw [Expr.eval, hv])

theorem append {cs ds : List Cond} {b b' : Bool} (hc : Reads P payload cs b)
    (hd : Reads P payload ds b') : Reads P payload (cs ++ ds) (b && b') where
  safe := by
    rw [Expr.atomsList_append]
    intro t ht
    rcases List.mem_append.mp ht with ht | ht
    · exact hc.safe t ht
    · exact hd.safe t ht
  value := by rw [Expr.evalAll_append, hc.value, hd.value, and3_some]

theorem all {cs : List Cond} {b : Bool} (h : Reads P payload cs b) : Reads P payload [.all cs] b :=
  singleton (by simpa only [Expr.atoms] using h.safe) (by simpa only [Expr.eval] using h.value)

theorem eval {c : Cond} {b : Bool} (h : Reads P payload [c] b) :
    c.eval (Test.value P payload) = some b := by
  have hv := h.value
  rw [Expr.evalAll, Expr.evalAll] at hv
  rcases hc : c.eval (Test.value P payload) with _ | _ | _ <;> simp_all [and3]

theorem safe_atoms {c : Cond} {b : Bool} (h : Reads P payload [c] b) :
    ∀ t ∈ c.atoms, t.fails P payload = false :=
  fun t ht => h.safe t (by simpa [Expr.atomsList] using ht)

theorem neg {c : Cond} {b : Bool} (h : Reads P payload [c] b) : Reads P payload [.neg c] (!b) :=
  singleton (by simpa only [Expr.atoms] using h.safe_atoms) (by rw [Expr.eval, h.eval, not3_some])

theorem any {cs : List Cond} {bs : List Bool}
    (h : List.Forall₂ (fun c b => Reads P payload [c] b) cs bs) :
    Reads P payload [.any cs] (bs.any id) := by
  suffices (∀ t ∈ Expr.atomsList cs, t.fails P payload = false) ∧
      Expr.evalAny (Test.value P payload) cs = some (bs.any id) from
    singleton (by simpa only [Expr.atoms] using this.1) (by simpa only [Expr.eval] using this.2)
  induction h with
  | nil => exact ⟨by simp [Expr.atomsList], rfl⟩
  | cons hc _ ih =>
      refine ⟨?_, by rw [Expr.evalAny, hc.eval, ih.2, or3_some, List.any_cons, id]⟩
      intro t ht
      rcases List.mem_append.mp ht with ht | ht
      · exact hc.safe_atoms t ht
      · exact ih.1 t ht

theorem selects {conds : List Cond} {b : Bool} (h : Reads P payload conds b) :
    selects P conds payload = b := by
  have hany : (Expr.atomsList conds).any (Test.fails P payload) = false := by
    simpa using h.safe
  rw [Filters.selects, hany, h.value]
  cases b <;> rfl

end Reads

/-! ## Operators and plain values -/

open Fallible

theorem Constraint.known.text {c : Constraint} (h : c.known P payload) :
    ∃ text, payload.text P c.key = some text := by
  obtain ⟨text, ht, _⟩ := h
  exact ⟨text, ht⟩

/-- The comparison of a known number reads as its documented meaning. -/
theorem reads_compare {key text : String} {cmp : Cmp} {a b : Number}
    (ht : payload.text P key = some text) (ha : P.castNumeric text = some a) :
    Reads P payload [.atom (.compare cmp key b)] (cmp.holds a b) :=
  Reads.atom (by simp [Test.fails, ht, ha]) (by simp [Test.value, Test.numeric, ht, ha])

theorem reads_buildOperator {key op : String} {value : Value} {c : Cond}
    (h : buildOperator P key op value = .ok c)
    (hk : (⟨key, some op, value⟩ : Constraint).known P payload) :
    Reads P payload [c] ((⟨key, some op, value⟩ : Constraint).holds P payload) := by
  obtain ⟨text, ht, hnum⟩ := hk
  simp only [Constraint.holds, ht]
  unfold buildOperator at h
  split at h
  case h_1 =>
    cases h
    exact Reads.atom rfl (by simp [Test.value, ht, operatorMeaning])
  case h_2 =>
    cases h
    exact Reads.atom rfl (by simp [Test.value, ht, operatorMeaning])
  case h_7 =>
    obtain ⟨vs, hvs, hc⟩ := bind_ok.mp h
    cases hc
    exact Reads.atom rfl (by simp [Test.value, ht, operatorMeaning, hvs])
  case h_8 =>
    obtain ⟨vs, hvs, hc⟩ := bind_ok.mp h
    cases hc
    refine Reads.neg (Reads.atom rfl ?_)
    simp [Test.value, ht, hvs]
  case h_9 =>
    cases h
    refine Reads.atom rfl ?_
    simp [Test.value, ht, operatorMeaning, containsPattern, Like.like_contains_eq]
  case h_10 =>
    cases h
    refine Reads.atom rfl ?_
    simp [Test.value, ht, operatorMeaning, containsPattern, Like.like_contains_eq]
  case h_11 => cases h
  -- the four comparisons
  all_goals
    obtain ⟨b, hb, hc⟩ := bind_ok.mp h
    cases hc
    obtain ⟨a, ha⟩ := Option.isSome_iff_exists.mp (hnum (by simp))
    simpa [operatorMeaning, ha, hb] using reads_compare ht ha

theorem reads_operators {key : String} {ops : Entries} {cs : List Cond}
    (h : List.Forall₂ (fun o c => buildOperator P key o.1 o.2 = .ok c) ops cs)
    (hk : ∀ c ∈ constraintsOf (key, .dict ops), c.known P payload) :
    Reads P payload cs ((constraintsOf (key, .dict ops)).all (Constraint.holds P payload)) := by
  simp only [constraintsOf] at hk ⊢
  induction h with
  | nil => exact Reads.nil
  | cons ho _ ih =>
      simp only [List.map_cons, List.forall_mem_cons] at hk
      exact (reads_buildOperator ho hk.1).append (ih hk.2)

/-- A value that is matched exactly, unless it is the wildcard. -/
theorem reads_exact {key : String} {v : Value}
    (hm : ∀ text, plainMeaning P text v = (v.isStar || text == v.pyStr P))
    (hk : (⟨key, none, v⟩ : Constraint).known P payload) :
    Reads P payload (if v.isStar then [.atom (.hasKey key)] else [.atom (.eq key (v.pyStr P))])
      ((⟨key, none, v⟩ : Constraint).holds P payload) := by
  obtain ⟨text, ht⟩ := hk.text
  have hkey : (payload.lookup key).isSome := by
    unfold Payload.text at ht
    exact Option.isSome_of_isSome_bind (by rw [ht]; rfl)
  by_cases hs : v.isStar
  · rw [if_pos hs]
    exact Reads.atom rfl (by simp [Test.value, Constraint.holds, ht, hm, hs, hkey])
  · rw [if_neg hs]
    exact Reads.atom rfl (by simp [Test.value, Constraint.holds, ht, hm, hs])

/-- The conditions of one key read as its constraints, and are none only if it has none. -/
theorem reads_buildField {key : String} {value : Value} {cs : List Cond}
    (h : buildField P key value = .ok cs)
    (hk : ∀ c ∈ constraintsOf (key, value), c.known P payload) :
    Reads P payload cs ((constraintsOf (key, value)).all (Constraint.holds P payload)) ∧
      (cs = [] ↔ constraintsOf (key, value) = []) := by
  have exact_value : ∀ v : Value, (if v.isStar then Except.ok [Expr.atom (Test.hasKey key)]
      else Except.ok [Expr.atom (Test.eq key (v.pyStr P))] : Except PyError (List Cond)) = .ok cs →
      constraintsOf (key, v) = [⟨key, none, v⟩] →
      (∀ text, plainMeaning P text v = (v.isStar || text == v.pyStr P)) →
      (∀ c ∈ constraintsOf (key, v), c.known P payload) →
      Reads P payload cs ((constraintsOf (key, v)).all (Constraint.holds P payload)) ∧
        (cs = [] ↔ constraintsOf (key, v) = []) := by
    intro v h hc hm hk
    have hcs : cs = if v.isStar then [.atom (.hasKey key)] else [.atom (.eq key (v.pyStr P))] := by
      by_cases hs : v.isStar
      · rw [if_pos hs] at h ⊢
        exact (Except.ok.inj h).symm
      · rw [if_neg hs] at h ⊢
        exact (Except.ok.inj h).symm
    rw [hc] at hk ⊢
    refine ⟨?_, by rw [hcs]; split <;> simp⟩
    simpa [hcs] using reads_exact hm (hk _ List.mem_cons_self)
  cases value with
  | dict ops =>
      have hops := mapM_ok.mp h
      refine ⟨reads_operators hops hk, ?_⟩
      cases hops <;> simp [constraintsOf]
  | list vs =>
      cases h
      obtain ⟨text, ht⟩ := (hk ⟨key, none, .list vs⟩ (by simp [constraintsOf])).text
      exact ⟨Reads.atom rfl (by simp [constraintsOf, Test.value, Constraint.holds, ht, plainMeaning]),
        by simp [constraintsOf]⟩
  | bool b =>
      cases h
      obtain ⟨text, ht⟩ := (hk ⟨key, none, .bool b⟩ (by simp [constraintsOf])).text
      exact ⟨Reads.atom rfl (by simp [constraintsOf, Test.value, Constraint.holds, ht, plainMeaning]),
        by simp [constraintsOf]⟩
  | null => exact exact_value .null h rfl (fun _ => rfl) hk
  | num m s => exact exact_value (.num m s) h rfl (fun _ => rfl) hk
  | str s => exact exact_value (.str s) h rfl (fun _ => rfl) hk

/-! ## Dictionaries without groups -/

/-- A dictionary whose keys are all field names. -/
def Plain (d : Entries) : Prop := ∀ e ∈ d, e.1 ≠ "$or" ∧ e.1 ≠ "$not"

theorem Plain.tail {e : String × Value} {d : Entries} (h : Plain (e :: d)) : Plain d :=
  fun e' he' => h e' (List.mem_cons_of_mem _ he')

/-- The conditions of a plain dictionary read as its constraints, and are none only if it has
none. -/
theorem reads_plain {d : Entries} {cs : List Cond} (h : buildFilterConditions P d = .ok cs)
    (hd : Plain d) (hk : ∀ c ∈ d.flatMap constraintsOf, c.known P payload) :
    Reads P payload cs ((d.flatMap constraintsOf).all (Constraint.holds P payload)) ∧
      (cs = [] ↔ d.flatMap constraintsOf = []) := by
  induction d generalizing cs with
  | nil =>
      rw [buildFilterConditions] at h
      cases h
      exact ⟨Reads.nil, by simp⟩
  | cons e d ih =>
      obtain ⟨key, value⟩ := e
      have hkey := hd (key, value) List.mem_cons_self
      simp only [buildFilterConditions, buildEntry, hkey.1, hkey.2, ↓reduceIte, bind_ok, pure_ok] at h
      obtain ⟨cf, hf, cd, hcd, rfl⟩ := h
      rw [List.flatMap_cons] at hk ⊢
      have field := reads_buildField hf (fun c hc => hk c (List.mem_append_left _ hc))
      have rest := ih hcd hd.tail (fun c hc => hk c (List.mem_append_right _ hc))
      rw [List.all_append]
      exact ⟨field.1.append rest.1, by simp [field.2, rest.2]⟩

/-! ## The conditions of one key -/

theorem mem_of_buildFilterConditions {d : Entries} {conds : List Cond}
    (h : buildFilterConditions P d = .ok conds) {key : String} {value : Value} (he : (key, value) ∈ d) :
    ∃ cs, buildEntry P key value = .ok cs ∧ ∀ c ∈ cs, c ∈ conds := by
  induction d generalizing conds with
  | nil => cases he
  | cons e d ih =>
      obtain ⟨key', value'⟩ := e
      simp only [buildFilterConditions, bind_ok, pure_ok] at h
      obtain ⟨cs, hcs, rest, hrest, rfl⟩ := h
      rcases List.mem_cons.mp he with he | he
      · cases he
        exact ⟨cs, hcs, fun c hc => List.mem_append_left _ hc⟩
      · obtain ⟨cs', hcs', hsub⟩ := ih hrest he
        exact ⟨cs', hcs', fun c hc => List.mem_append_right _ (hsub c hc)⟩

/-- A plain text in a processed dictionary is matched exactly by every payload it admits. -/
theorem text_of_selects {d : Entries} {conds : List Cond} (h : buildFilterConditions P d = .ok conds)
    {key s : String} (hkey : key ≠ "$or" ∧ key ≠ "$not") (hs : s ≠ "*")
    (he : d.lookup key = some (.str s)) (hsel : Filters.selects P conds payload = true) :
    payload.text P key = some s := by
  obtain ⟨cs, hcs, hsub⟩ := mem_of_buildFilterConditions h (Dict.mem_of_lookup he)
  have hstar : (Value.str s).isStar = false := by simpa [Value.isStar] using hs
  simp only [buildEntry, buildField, hkey.1, hkey.2, hstar, ↓reduceIte, Bool.false_eq_true,
    Except.ok.injEq] at hcs
  have hcond := (selects_iff.mp hsel).2 _ (hsub (.atom (.eq key s)) (by rw [← hcs]; exact List.mem_cons_self))
  simp only [Expr.eval, Test.value] at hcond
  obtain ⟨t, ht, htrue⟩ := Option.map_eq_some_iff.mp hcond
  rw [ht, beq_iff_eq.mp htrue]

/-! ## Groups -/

theorem buildGroupList_dicts {gs : List Entries} {groups : List (List Cond)}
    (h : buildGroupList P (gs.map .dict) = .ok groups) :
    List.Forall₂ (fun d g => buildFilterConditions P d = .ok g) gs groups := by
  induction gs generalizing groups with
  | nil =>
      rw [List.map_nil, buildGroupList] at h
      cases h
      exact .nil
  | cons d gs ih =>
      simp only [List.map_cons, buildGroupList, buildGroup, bind_ok, pure_ok] at h
      obtain ⟨g, hg, groups', hgroups, rfl⟩ := h
      exact .cons hg (ih hgroups)

/-- The groups that contribute a condition are those with constraints. -/
theorem reads_nonEmptyGroups {gs : List Entries} {groups : List (List Cond)}
    (h : List.Forall₂ (fun d g => buildFilterConditions P d = .ok g) gs groups)
    (hd : ∀ d ∈ gs, Plain d) (hk : ∀ d ∈ gs, ∀ c ∈ d.flatMap constraintsOf, c.known P payload) :
    List.Forall₂ (fun c b => Reads P payload [c] b) (nonEmptyGroups groups)
      (((branches (.list (gs.map .dict))).filter fun g => !g.isEmpty).map
        fun g => g.all (Constraint.holds P payload)) := by
  induction h with
  | nil => exact .nil
  | cons hg _ ih =>
      rename_i d g gs' groups' _
      have group := reads_plain hg (hd d List.mem_cons_self) (hk d List.mem_cons_self)
      have rest := ih (fun d' h' => hd d' (List.mem_cons_of_mem _ h'))
        (fun d' h' => hk d' (List.mem_cons_of_mem _ h'))
      have hempty : g.isEmpty = (d.flatMap constraintsOf).isEmpty := by
        rw [Bool.eq_iff_iff, List.isEmpty_iff, List.isEmpty_iff, group.2]
      simp only [nonEmptyGroups, branches, List.map_cons, List.filter_cons, branchConstraints, hempty]
      split
      · exact .cons group.1.all rest
      · exact rest

theorem reads_orCondition {groups : List (List Cond)} {gs : List (List Constraint)}
    {r : List Constraint → Bool}
    (h : List.Forall₂ (fun c b => Reads P payload [c] b) (nonEmptyGroups groups) (gs.map r)) :
    Reads P payload (orCondition groups) (gs.isEmpty || gs.any r) := by
  have hlen := h.length_eq
  rw [List.length_map] at hlen
  unfold orCondition
  by_cases he : (nonEmptyGroups groups).isEmpty
  · have hgs : gs = [] := by
      rw [List.isEmpty_iff] at he
      rwa [he, List.length_nil, eq_comm, List.length_eq_zero_iff] at hlen
    rw [if_pos he, hgs]
    exact Reads.nil
  · have hgs : gs.isEmpty = false := by
      rw [List.isEmpty_iff, ← List.length_eq_zero_iff, hlen, List.length_eq_zero_iff] at he
      simpa using he
    rw [if_neg he, hgs, Bool.false_or]
    simpa using Reads.any h

theorem reads_notCondition {groups : List (List Cond)} {gs : List (List Constraint)}
    {r : List Constraint → Bool}
    (h : List.Forall₂ (fun c b => Reads P payload [c] b) (nonEmptyGroups groups) (gs.map r)) :
    Reads P payload (notCondition groups) (!gs.any r) := by
  unfold notCondition
  by_cases he : (nonEmptyGroups groups).isEmpty
  · have hgs : gs = [] := by
      have hlen := h.length_eq
      rw [List.isEmpty_iff] at he
      rwa [he, List.length_nil, List.length_map, eq_comm, List.length_eq_zero_iff] at hlen
    rw [if_pos he, hgs]
    exact Reads.nil
  · rw [if_neg he]
    simpa using Reads.neg (Reads.any h)

/-- Whether the payload meets one entry of a processed dictionary. -/
def entryReading (P : Platform) (payload : Payload) (e : String × Value) : Bool :=
  if e.1 = "$or" then someGroup (List.all · (Constraint.holds P payload)) (branches e.2)
  else if e.1 = "$not" then noGroup (List.all · (Constraint.holds P payload)) (branches e.2)
  else (constraintsOf e).all (Constraint.holds P payload)

/-- The groups of `$or` and `$not` are dictionaries without groups. -/
def Grouped (d : Entries) : Prop :=
  ∀ e ∈ d, (e.1 = "$or" ∨ e.1 = "$not") →
    ∃ gs : List Entries, e.2 = .list (gs.map .dict) ∧ ∀ g ∈ gs, Plain g

/-- All constraints of a processed dictionary, those of its groups included. -/
def allConstraints (e : String × Value) : List Constraint :=
  if e.1 = "$or" ∨ e.1 = "$not" then (branches e.2).flatten else constraintsOf e

theorem reads_buildEntry {e : String × Value} {cs : List Cond}
    (h : buildEntry P e.1 e.2 = .ok cs)
    (hd : (e.1 = "$or" ∨ e.1 = "$not") →
      ∃ gs : List Entries, e.2 = .list (gs.map .dict) ∧ ∀ g ∈ gs, Plain g)
    (hk : ∀ c ∈ allConstraints e, c.known P payload) :
    Reads P payload cs (entryReading P payload e) := by
  obtain ⟨key, value⟩ := e
  by_cases hlog : key = "$or" ∨ key = "$not"
  · obtain ⟨gs, rfl, hplain⟩ := hd hlog
    have hknown : ∀ d ∈ gs, ∀ c ∈ d.flatMap constraintsOf, c.known P payload := by
      intro d hgs c hc
      refine hk c ?_
      rw [allConstraints, if_pos hlog, List.mem_flatten]
      exact ⟨_, List.mem_map.mpr ⟨.dict d, List.mem_map_of_mem hgs, rfl⟩, hc⟩
    have groups_read : ∀ groups, buildGroups P (.list (gs.map .dict)) = .ok groups →
        List.Forall₂ (fun c b => Reads P payload [c] b) (nonEmptyGroups groups)
          (((branches (.list (gs.map .dict))).filter fun g => !g.isEmpty).map
            fun g => g.all (Constraint.holds P payload)) := fun groups hg =>
      reads_nonEmptyGroups (buildGroupList_dicts (by rwa [buildGroups] at hg)) hplain hknown
    by_cases hor : key = "$or"
    · subst hor
      simp only [buildEntry, ↓reduceIte, bind_ok, pure_ok] at h
      obtain ⟨groups, hg, rfl⟩ := h
      simpa [entryReading, someGroup] using reads_orCondition (groups_read groups hg)
    · have hnot : key = "$not" := hlog.resolve_left hor
      subst hnot
      simp only [buildEntry, hor, ↓reduceIte, bind_ok, pure_ok] at h
      obtain ⟨groups, hg, rfl⟩ := h
      simpa [entryReading, noGroup] using reads_notCondition (groups_read groups hg)
  · rw [allConstraints, if_neg hlog] at hk
    rw [not_or] at hlog
    simp only [buildEntry, hlog, ↓reduceIte] at h
    simpa [entryReading, hlog] using (reads_buildField h hk).1

/-- The conditions a processed dictionary compiles to are true of exactly the payloads that meet all
its entries. -/
theorem reads_dict {d : Entries} {cs : List Cond} (h : buildFilterConditions P d = .ok cs)
    (hd : Grouped d) (hk : ∀ e ∈ d, ∀ c ∈ allConstraints e, c.known P payload) :
    Reads P payload cs (d.all (entryReading P payload)) := by
  induction d generalizing cs with
  | nil =>
      rw [buildFilterConditions] at h
      cases h
      exact Reads.nil
  | cons e d ih =>
      obtain ⟨key, value⟩ := e
      simp only [buildFilterConditions, bind_ok, pure_ok] at h
      obtain ⟨ce, he, cd, hcd, rfl⟩ := h
      exact (reads_buildEntry he (hd _ List.mem_cons_self)
        (hk _ List.mem_cons_self)).append
        (ih hcd (fun e' h' => hd e' (List.mem_cons_of_mem _ h'))
          (fun e' h' => hk e' (List.mem_cons_of_mem _ h')))

end YiQiao.Filters
