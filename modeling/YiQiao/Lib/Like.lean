import Mathlib.Data.List.Infix

/-!
# LIKE patterns

The SQL pattern language: `%` stands for any text, `_` for any character and `\` quotes the next
character. Characters are compared after `fold`, which is the identity for `LIKE` and a case folding
for `ILIKE`. A quoted text between two `%` matches exactly the texts that contain it.
-/

namespace YiQiao.Lib.Like

variable (fold : Char → Char)

/-- `text LIKE pattern ESCAPE '\'`. -/
def like : List Char → List Char → Bool
  | [], t => t.isEmpty
  | '%' :: p, t => t.tails.any (like p)
  | '_' :: p, t => match t with
    | [] => false
    | _ :: t => like p t
  | ['\\'], _ => false
  | '\\' :: c :: p, t => match t with
    | [] => false
    | d :: t => fold c == fold d && like p t
  | c :: p, t => match t with
    | [] => false
    | d :: t => fold c == fold d && like p t

/-- The quoted form of one character. -/
def escapeChar (c : Char) : List Char :=
  if c = '\\' ∨ c = '%' ∨ c = '_' then ['\\', c] else [c]

/-- The quoted form of a text. -/
def escape (s : List Char) : List Char := s.flatMap escapeChar

theorem like_percent (p t : List Char) : like fold ('%' :: p) t = t.tails.any (like fold p) := by
  simp only [like]

theorem like_percent_nil (t : List Char) : like fold ['%'] t = true := by
  rw [like_percent, List.any_eq_true]
  exact ⟨[], (List.mem_tails _ _).mpr (List.nil_suffix), by simp [like]⟩

theorem like_escapeChar (c : Char) (p t : List Char) :
    like fold (escapeChar c ++ p) t = true ↔ ∃ d t', t = d :: t' ∧ fold c = fold d ∧ like fold p t' = true := by
  by_cases h : c = '\\' ∨ c = '%' ∨ c = '_'
  · rw [escapeChar, if_pos h]
    cases t <;> simp [like]
  · rw [escapeChar, if_neg h]
    simp only [not_or] at h
    have hstep : like fold (c :: p) t = match t with
        | [] => false
        | d :: t => fold c == fold d && like fold p t := by
      rw [like.eq_def]
      split <;> simp_all
    rw [List.singleton_append, hstep]
    cases t <;> simp

theorem like_escape_append (s p t : List Char) :
    like fold (escape s ++ p) t = true ↔
      ∃ u t', t = u ++ t' ∧ u.map fold = s.map fold ∧ like fold p t' = true := by
  induction s generalizing t with
  | nil => simp [escape]
  | cons c s ih =>
      have happ : escape (c :: s) ++ p = escapeChar c ++ (escape s ++ p) := by
        simp [escape, List.append_assoc]
      rw [happ, like_escapeChar]
      constructor
      · rintro ⟨d, t', rfl, hd, ht⟩
        obtain ⟨u, t'', rfl, hu, hp⟩ := (ih t').mp ht
        exact ⟨d :: u, t'', rfl, by simp [hu, hd], hp⟩
      · rintro ⟨u, t', rfl, hu, hp⟩
        cases u with
        | nil => simp at hu
        | cons d u =>
            simp only [List.map_cons, List.cons.injEq] at hu
            exact ⟨d, u ++ t', rfl, hu.1.symm, (ih _).mpr ⟨u, t', rfl, hu.2, hp⟩⟩

/-- A quoted text between two `%` matches the texts that contain it up to `fold`. -/
theorem like_contains (s t : List Char) :
    like fold ('%' :: (escape s ++ ['%'])) t = true ↔ s.map fold <:+: t.map fold := by
  rw [like_percent, List.any_eq_true]
  constructor
  · rintro ⟨r, hr, hl⟩
    obtain ⟨l, rfl⟩ := (List.mem_tails _ _).mp hr
    obtain ⟨u, t', rfl, hu, _⟩ := (like_escape_append fold s ['%'] r).mp hl
    exact ⟨l.map fold, t'.map fold, by simp [hu]⟩
  · rintro ⟨l, r, h⟩
    obtain ⟨l', rest, rfl, rfl, h'⟩ := List.map_eq_append_iff.mp (h.symm.trans (List.append_assoc _ _ _))
    obtain ⟨u, r', rfl, hu, rfl⟩ := List.map_eq_append_iff.mp h'
    exact ⟨u ++ r', (List.mem_tails _ _).mpr (List.suffix_append _ _),
      (like_escape_append fold s ['%'] _).mpr ⟨u, r', rfl, hu, like_percent_nil fold r'⟩⟩

theorem like_contains_eq (s t : List Char) :
    like fold ('%' :: (escape s ++ ['%'])) t = decide (s.map fold <:+: t.map fold) :=
  Bool.eq_iff_iff.mpr (by rw [like_contains, decide_eq_true_iff])

end YiQiao.Lib.Like
