import YiQiao.Import.Text

/-!
# What a text weighs

The estimate of a text without an encoder is the weight of its tokens. A word or a number is a run of letters or
digits, or two that are joined; a token is found where it begins, whatever stood before it.
-/

namespace YiQiao

open Lib

/-! ## Runs -/

/-- The text goes on with something else. -/
def Stops (p : Char → Bool) (text : Text) : Prop := ∀ c rest, text = c :: rest → p c = false

/-- The text does not go on with a joint and another run. -/
def Unjoined (p : Char → Bool) (joint : Char) (text : Text) : Prop := ∀ c rest, text = joint :: c :: rest → p c = false

section

variable {p : Char → Bool} {joint : Char} {a b text tail : Text}

theorem Stops.nil : Stops p [] := by
  intro c rest h
  cases h

theorem Unjoined.nil : Unjoined p joint [] := by
  intro c rest h
  cases h

theorem Stops.of_prefix (h : Stops p text) (hinit : tail <+: text) : Stops p tail := by
  obtain ⟨more, rfl⟩ := hinit
  rintro c rest rfl
  exact h c (rest ++ more) rfl

theorem Unjoined.of_prefix (h : Unjoined p joint text) (hinit : tail <+: text) : Unjoined p joint tail := by
  obtain ⟨more, rfl⟩ := hinit
  rintro c rest rfl
  exact h c (rest ++ more) rfl

theorem takeWhile_run (ha : ∀ c ∈ a, p c = true) (hstops : Stops p tail) : (a ++ tail).takeWhile p = a := by
  rw [List.takeWhile_append_of_pos ha]
  cases tail with
  | nil => simp
  | cons c rest => rw [List.takeWhile_cons, if_neg (by simp [hstops c rest rfl]), List.append_nil]

/-- A run that no joint continues. -/
theorem joinedRun_run (ha : ∀ c ∈ a, p c = true) (hstops : Stops p tail) (hjoint : Unjoined p joint tail) :
    joinedRun p joint (a ++ tail) = a.length := by
  unfold joinedRun
  rw [takeWhile_run ha hstops]
  dsimp only
  rw [List.drop_left]
  split
  · rename_i j c rest
    split
    · rename_i hj
      rw [hj.1] at hjoint
      have hc := hjoint c rest rfl
      rw [hj.2] at hc
      cases hc
    · rfl
  · rfl

/-- Two runs and the joint between them. -/
theorem joinedRun_joined (hp : p joint = false) (ha : ∀ c ∈ a, p c = true) (hb : ∀ c ∈ b, p c = true) (hne : b ≠ [])
    (hstops : Stops p tail) : joinedRun p joint (a ++ joint :: b ++ tail) = (a ++ joint :: b).length := by
  have hfirst : Stops p (joint :: (b ++ tail)) := by
    intro c rest h
    cases h
    exact hp
  unfold joinedRun
  rw [List.append_assoc, List.cons_append, takeWhile_run ha hfirst]
  dsimp only
  rw [List.drop_left]
  cases b with
  | nil => exact absurd rfl hne
  | cons c rest =>
    obtain ⟨hc, hrest⟩ := List.forall_mem_cons.mp hb
    rw [List.cons_append]
    dsimp only
    rw [if_pos ⟨rfl, hc⟩, takeWhile_run hrest hstops]
    simp only [List.length_append, List.length_cons]
    omega

theorem joinedRun_le : joinedRun p joint text ≤ text.length := by
  have hfirst : (text.takeWhile p).length ≤ text.length := (List.takeWhile_prefix p).length_le
  unfold joinedRun
  dsimp only
  split
  · rename_i j c rest hdrop
    have hlength := congrArg List.length hdrop
    rw [List.length_drop, List.length_cons, List.length_cons] at hlength
    have hrest : (rest.takeWhile p).length ≤ rest.length := (List.takeWhile_prefix p).length_le
    split
    · omega
    · exact hfirst
  · exact hfirst

/-- The two shapes of a joined run. -/
inductive Joined (p : Char → Bool) (joint : Char) (text tail : Text) : Prop
  | run : (∀ c ∈ text, p c = true) → Stops p tail → Unjoined p joint tail → Joined p joint text tail
  | joined {a b : Text} : text = a ++ joint :: b → a ≠ [] → b ≠ [] → (∀ c ∈ a, p c = true) → (∀ c ∈ b, p c = true) →
      Stops p tail → Joined p joint text tail

theorem exists_run (p : Char → Bool) (text : Text) : ∃ a rest, text = a ++ rest ∧ (∀ c ∈ a, p c = true) ∧ Stops p rest := by
  induction text with
  | nil => exact ⟨[], [], rfl, by simp, .nil⟩
  | cons c text ih =>
    by_cases hc : p c = true
    · obtain ⟨a, rest, rfl, ha, hrest⟩ := ih
      exact ⟨c :: a, rest, rfl, List.forall_mem_cons.mpr ⟨hc, ha⟩, hrest⟩
    · refine ⟨[], c :: text, rfl, by simp, ?_⟩
      intro c' rest h
      cases h
      simpa using hc

/-- What stands up to the end of a joined run has one of the two shapes. -/
theorem joined_of_joinedRun (hp : p joint = false) (hhead : ∀ c rest, text = c :: rest → p c = true) (hne : text ≠ [])
    (h : joinedRun p joint (text ++ tail) = text.length) : Joined p joint text tail := by
  obtain ⟨a, rest, hsplit, ha, hrest⟩ := exists_run p (text ++ tail)
  have hfirst : a ≠ [] := by
    rintro rfl
    obtain ⟨c, more, rfl⟩ := List.exists_cons_of_ne_nil hne
    have hc := hrest c (more ++ tail) hsplit.symm
    rw [hhead c more rfl] at hc
    cases hc
  by_cases hjoint : Unjoined p joint rest
  · rw [hsplit, joinedRun_run ha hrest hjoint] at h
    obtain ⟨rfl, rfl⟩ := List.append_inj hsplit h.symm
    exact .run ha hrest hjoint
  · simp only [Unjoined, not_forall] at hjoint
    obtain ⟨c, more, rfl, hc⟩ := hjoint
    obtain ⟨b, end', rfl, hb, hend⟩ := exists_run p more
    have hcons : ∀ x ∈ c :: b, p x = true := List.forall_mem_cons.mpr ⟨by simpa using hc, hb⟩
    have hwhole : text ++ tail = (a ++ joint :: (c :: b)) ++ end' := by
      rw [hsplit]
      simp
    rw [hwhole, joinedRun_joined hp ha hcons (List.cons_ne_nil _ _) hend] at h
    obtain ⟨rfl, rfl⟩ := List.append_inj hwhole h.symm
    exact .joined rfl hfirst (List.cons_ne_nil _ _) ha hcons hend

theorem Joined.joinedRun (h : Joined p joint text tail) (hp : p joint = false) :
    joinedRun p joint (text ++ tail) = text.length := by
  cases h with
  | run ha hstops hjoint => exact joinedRun_run ha hstops hjoint
  | joined htext _ hb ha hb' hstops =>
    subst htext
    exact joinedRun_joined hp ha hb' hb hstops

/-- A shape stays where what follows is cut off. -/
theorem Joined.of_prefix {tail' : Text} (h : Joined p joint text tail) (hinit : tail' <+: tail) :
    Joined p joint text tail' := by
  cases h with
  | run ha hstops hjoint => exact .run ha (hstops.of_prefix hinit) (hjoint.of_prefix hinit)
  | joined htext ha hb ha' hb' hstops => exact .joined htext ha hb ha' hb' (hstops.of_prefix hinit)

end

/-! ## Tokens -/

/-- Decimal digits are no letters, no white space and no joints. -/
def Tokenizer.Decimals (T : Tokenizer) : Prop := ∀ c, T.isDecimal c = true →
  isIdeograph c = false ∧ c.isAlpha = false ∧ isSpace c = false ∧ c ≠ '\'' ∧ c ≠ '.'

/-- The runs that are words and numbers, and their joints. -/
inductive Tokenizer.Kind (T : Tokenizer) : (Char → Bool) → Char → Prop
  | word : T.Kind Char.isAlpha '\''
  | number : T.Kind T.isDecimal '.'

section

variable {T : Tokenizer} {p : Char → Bool} {joint : Char} {text tail : Text}

theorem isAlpha_range {c : Char} (h : c.isAlpha = true) : 65 ≤ c.toNat ∧ c.toNat ≤ 122 := by
  delta Char.isAlpha Char.isUpper Char.isLower at h
  simp only [Bool.or_eq_true, Bool.and_eq_true, decide_eq_true_eq] at h
  have hval : c.toNat = c.val.toNat := rfl
  rcases h with ⟨h₁, h₂⟩ | ⟨h₁, h₂⟩
  · have h₁' : 65 ≤ c.val.toNat := UInt32.le_iff_toNat_le.mp h₁
    have h₂' : c.val.toNat ≤ 90 := UInt32.le_iff_toNat_le.mp h₂
    omega
  · have h₁' : 97 ≤ c.val.toNat := UInt32.le_iff_toNat_le.mp h₁
    have h₂' : c.val.toNat ≤ 122 := UInt32.le_iff_toNat_le.mp h₂
    omega

theorem isIdeograph_of_isAlpha {c : Char} (h : c.isAlpha = true) : isIdeograph c = false := by
  obtain ⟨hlow, hhigh⟩ := isAlpha_range h
  simp only [isIdeograph, Bool.or_eq_false_iff, Bool.and_eq_false_iff, decide_eq_false_iff_not]
  omega

theorem fallbackToken_kind (hd : T.Decimals) (hk : T.Kind p joint) {c : Char} (hc : p c = true) (rest : Text) :
    fallbackToken T (c :: rest) = some (joinedRun p joint (c :: rest), true) := by
  cases hk with
  | word => rw [fallbackToken, if_neg (by simp [isIdeograph_of_isAlpha hc]), if_pos hc]
  | number =>
    obtain ⟨hideograph, halpha, -⟩ := hd c hc
    rw [fallbackToken, if_neg (by simp [hideograph]), if_neg (by simp [halpha]), if_pos hc]

theorem Tokenizer.Kind.joint_false (hd : T.Decimals) (hk : T.Kind p joint) : p joint = false := by
  cases hk with
  | word => decide
  | number =>
    rw [← Bool.not_eq_true]
    intro h
    exact (hd '.' h).2.2.2.2 rfl

theorem fallbackToken_joint (hd : T.Decimals) (hk : T.Kind p joint) (rest : Text) :
    fallbackToken T (joint :: rest) = some (1, false) := by
  have hdecimal : T.isDecimal joint = false := by
    rw [← Bool.not_eq_true]
    intro h
    cases hk with
    | word => exact (hd '\'' h).2.2.2.1 rfl
    | number => exact (hd '.' h).2.2.2.2 rfl
  have hplain : isIdeograph joint = false ∧ joint.isAlpha = false ∧ isSpace joint = false := by
    cases hk with
    | word => decide
    | number => decide
  obtain ⟨hideograph, halpha, hspace⟩ := hplain
  simp [fallbackToken, hdecimal, hideograph, halpha, hspace]

/-- A word or a number has one of the two shapes. -/
theorem joined_of_fallbackToken (hd : T.Decimals) (h : fallbackToken T (text ++ tail) = some (text.length, true))
    (hne : text ≠ []) : ∃ p joint, T.Kind p joint ∧ Joined p joint text tail := by
  obtain ⟨c, rest, rfl⟩ := List.exists_cons_of_ne_nil hne
  rw [List.cons_append, fallbackToken] at h
  have hhead : ∀ p : Char → Bool, p c = true → ∀ c' rest', c :: rest = c' :: rest' → p c' = true := by
    intro p hc c' rest' heq
    cases heq
    exact hc
  split at h
  · simp at h
  · split at h
    · rename_i hc
      have hlength := congrArg Prod.fst (Option.some.inj h)
      exact ⟨_, _, .word, joined_of_joinedRun (by decide) (hhead _ hc) hne hlength⟩
    · split at h
      · rename_i hc
        have hlength := congrArg Prod.fst (Option.some.inj h)
        exact ⟨_, _, .number, joined_of_joinedRun (Tokenizer.Kind.number.joint_false hd) (hhead _ hc) hne hlength⟩
      · split at h
        · cases h
        · simp at h

theorem Joined.head (h : Joined p joint text tail) {c : Char} {rest : Text} (htext : text = c :: rest) : p c = true := by
  cases h with
  | run ha _ _ => exact ha c (by simp [htext])
  | joined hsplit hne _ ha _ _ =>
    obtain ⟨c', a', rfl⟩ := List.exists_cons_of_ne_nil hne
    rw [htext, List.cons_append] at hsplit
    cases hsplit
    exact ha c List.mem_cons_self

theorem Joined.fallbackToken (h : Joined p joint text tail) (hd : T.Decimals) (hk : T.Kind p joint) (hne : text ≠ []) :
    fallbackToken T (text ++ tail) = some (text.length, true) := by
  obtain ⟨c, rest, rfl⟩ := List.exists_cons_of_ne_nil hne
  have hrun := h.joinedRun (hk.joint_false hd)
  rw [List.cons_append] at hrun ⊢
  rw [fallbackToken_kind hd hk (h.head rfl), hrun]

/-- No token begins with a character, whatever follows. -/
theorem fallbackToken_none {c : Char} {rest : Text} (h : fallbackToken T (c :: rest) = none) (rest' : Text) :
    fallbackToken T (c :: rest') = none := by
  rw [fallbackToken] at h ⊢
  split at h
  · cases h
  · split at h
    · cases h
    · split at h
      · cases h
      · split at h
        · rename_i h₁ h₂ h₃ h₄
          rw [if_neg h₁, if_neg h₂, if_neg h₃, if_pos h₄]
        · cases h

/-- A token that is no word and no number is one character, whatever follows. -/
theorem fallbackToken_single {c : Char} {rest : Text} {n : Nat} (h : fallbackToken T (c :: rest) = some (n, false)) :
    n = 1 ∧ ∀ rest', fallbackToken T (c :: rest') = some (1, false) := by
  rw [fallbackToken] at h
  split at h
  · rename_i h₁
    cases h
    exact ⟨rfl, fun rest' => by rw [fallbackToken, if_pos h₁]⟩
  · split at h
    · cases h
    · split at h
      · cases h
      · split at h
        · cases h
        · rename_i h₁ h₂ h₃ h₄
          cases h
          exact ⟨rfl, fun rest' => by rw [fallbackToken, if_neg h₁, if_neg h₂, if_neg h₃, if_neg h₄]⟩

theorem fallbackToken_space (hd : T.Decimals) {c : Char} (hc : isSpace c = true) (rest : Text) :
    fallbackToken T (c :: rest) = none := by
  have hspace := hc
  simp only [isSpace, Bool.or_eq_true, Bool.and_eq_true, decide_eq_true_eq, beq_iff_eq] at hspace
  have hideograph : isIdeograph c = false := by
    simp only [isIdeograph, Bool.or_eq_false_iff, Bool.and_eq_false_iff, decide_eq_false_iff_not]
    omega
  have halpha : c.isAlpha = false := by
    rw [← Bool.not_eq_true]
    intro h
    have hrange := isAlpha_range h
    omega
  have hdecimal : T.isDecimal c = false := by
    rw [← Bool.not_eq_true]
    intro h
    rw [(hd c h).2.2.1] at hc
    cases hc
  simp [fallbackToken, hdecimal, hideograph, halpha, hc]

/-- A token stays a token where what follows is cut off. -/
theorem fallbackToken_init (hd : T.Decimals) {word : Bool} (h : fallbackToken T (text ++ tail) = some (text.length, word))
    (hne : text ≠ []) {tail' : Text} (hinit : tail' <+: tail) :
    fallbackToken T (text ++ tail') = some (text.length, word) := by
  cases word with
  | true =>
    obtain ⟨p, joint, hk, hjoined⟩ := joined_of_fallbackToken hd h hne
    exact (hjoined.of_prefix hinit).fallbackToken hd hk hne
  | false =>
    obtain ⟨c, rest, rfl⟩ := List.exists_cons_of_ne_nil hne
    obtain ⟨hlength, hall⟩ := fallbackToken_single h
    rw [hlength, List.cons_append]
    exact hall _

end

/-! ## The sum of the weights -/

def FallbackMatch.weight (m : FallbackMatch) : Nat := tokenWeight m.token.length m.word

/-- The weight of the tokens of a text. -/
def tokenSum (T : Tokenizer) (text : Text) : Nat := ((fallbackTokens T text).1.map FallbackMatch.weight).sum

/-- The weight of a run. -/
def runWeight (length : Nat) : Nat := (length + 3) / 4

theorem tokenWeight_word {length : Nat} (h : length ≠ 0) : tokenWeight length true = runWeight length := by
  simp only [tokenWeight, runWeight, if_true]
  omega

section

variable {T : Tokenizer} {p : Char → Bool} {joint : Char} {text tail : Text}

theorem estimateTokens_fallback (h : T.encode = none) (text : Text) :
    estimateTokens T text = max 1 (tokenSum T text) := by
  rw [estimateTokens, h]
  rfl

/-- The weights do not depend on the fuel, nor on what was read. -/
theorem fallbackMatches_weight {fuel fuel' : Nat} (gap gap' : Text) (h : text.length ≤ fuel) (h' : text.length ≤ fuel') :
    (fallbackMatches T fuel gap text).1.map FallbackMatch.weight =
      (fallbackMatches T fuel' gap' text).1.map FallbackMatch.weight := by
  induction fuel generalizing fuel' gap gap' text with
  | zero =>
    obtain rfl := List.length_eq_zero_iff.mp (Nat.le_zero.mp h)
    cases fuel' <;> rfl
  | succ fuel ih =>
    cases text with
    | nil => cases fuel' <;> rfl
    | cons c rest =>
      rw [List.length_cons] at h h'
      obtain ⟨fuel', rfl⟩ := Nat.exists_eq_add_one_of_ne_zero (show fuel' ≠ 0 by omega)
      unfold fallbackMatches
      dsimp only
      cases htoken : fallbackToken T (c :: rest) with
      | none => exact ih _ _ (by omega) (by omega)
      | some found =>
        obtain ⟨length, word⟩ := found
        have hpos := fallbackToken_pos htoken
        have hdrop : ((c :: rest).drop length).length ≤ min fuel fuel' := by
          rw [List.length_drop, List.length_cons]
          omega
        rw [List.map_cons, List.map_cons]
        congr 1
        exact ih _ _ (by omega) (by omega)

@[simp] theorem tokenSum_nil : tokenSum T [] = 0 := rfl

theorem tokenSum_blank {c : Char} {rest : Text} (h : fallbackToken T (c :: rest) = none) :
    tokenSum T (c :: rest) = tokenSum T rest := by
  rw [tokenSum, tokenSum, fallbackTokens, fallbackTokens, List.length_cons, fallbackMatches]
  dsimp only
  rw [h]
  dsimp only
  rw [fallbackMatches_weight _ [] le_rfl le_rfl]

theorem tokenSum_token {word : Bool} (h : fallbackToken T (text ++ tail) = some (text.length, word)) (hne : text ≠ []) :
    tokenSum T (text ++ tail) = tokenWeight text.length word + tokenSum T tail := by
  obtain ⟨c, rest, rfl⟩ := List.exists_cons_of_ne_nil hne
  rw [tokenSum, tokenSum, fallbackTokens, fallbackTokens]
  have hlength : (c :: rest ++ tail).length = (rest ++ tail).length + 1 := rfl
  rw [hlength]
  rw [List.cons_append] at h ⊢
  rw [fallbackMatches]
  dsimp only
  rw [h]
  dsimp only
  rw [List.map_cons, List.sum_cons, FallbackMatch.weight]
  dsimp only
  rw [← List.cons_append, List.take_left, List.drop_left]
  congr 2
  apply fallbackMatches_weight
  · rw [List.length_append]
    omega
  · exact le_rfl

theorem tokenSum_blanks {gap : Text} (h : ∀ c ∈ gap, ∀ rest, fallbackToken T (c :: rest) = none) (text : Text) :
    tokenSum T (gap ++ text) = tokenSum T text := by
  induction gap with
  | nil => rfl
  | cons c gap ih =>
    obtain ⟨hc, hgap⟩ := List.forall_mem_cons.mp h
    rw [List.cons_append, tokenSum_blank (hc _), ih hgap]

theorem tokenSum_joint (hd : T.Decimals) (hk : T.Kind p joint) (rest : Text) :
    tokenSum T (joint :: rest) = 1 + tokenSum T rest := by
  have htoken : fallbackToken T ([joint] ++ rest) = some ([joint].length, false) := fallbackToken_joint hd hk rest
  exact tokenSum_token htoken (List.cons_ne_nil _ _)

/-- A token is not longer than its text. -/
theorem fallbackToken_le {n : Nat} {word : Bool} (h : fallbackToken T text = some (n, word)) : n ≤ text.length := by
  cases text with
  | nil => cases h
  | cons c rest =>
    rw [fallbackToken] at h
    split at h
    · cases h
      simp
    · split at h
      · cases h
        exact joinedRun_le
      · split at h
        · cases h
          exact joinedRun_le
        · split at h
          · cases h
          · cases h
            simp

/-- The induction over the tokens of a text. -/
theorem tokens_induction {motive : Text → Prop} (nil : motive [])
    (blank : ∀ c rest, (∀ rest', fallbackToken T (c :: rest') = none) → motive rest → motive (c :: rest))
    (token : ∀ text tail word, text ≠ [] → fallbackToken T (text ++ tail) = some (text.length, word) → motive tail →
      motive (text ++ tail)) (text : Text) : motive text := by
  induction hlength : text.length using Nat.strong_induction_on generalizing text with
  | _ n ih =>
    cases text with
    | nil => exact nil
    | cons c rest =>
      cases htoken : fallbackToken T (c :: rest) with
      | none =>
        apply blank c rest (fallbackToken_none htoken)
        exact ih rest.length (by rw [← hlength]; simp) rest rfl
      | some found =>
        obtain ⟨length, word⟩ := found
        have hpos := fallbackToken_pos htoken
        have hle := fallbackToken_le htoken
        have htake : ((c :: rest).take length).length = length := by
          rw [List.length_take]
          omega
        rw [← List.take_append_drop length (c :: rest)]
        apply token _ _ word
        · intro hnil
          rw [hnil] at htake
          rw [← htake] at hpos
          cases hpos
        · rw [List.take_append_drop, htake, htoken]
        · apply ih ((c :: rest).drop length).length _ _ rfl
          rw [← hlength, List.length_drop]
          rw [List.length_cons] at hle ⊢
          omega

end

/-! ## Texts with white space between them -/

/-- White space stands on one side of where two texts meet. -/
def Separated (x y : Text) : Prop :=
  x = [] ∨ y = [] ∨ x.getLast?.any isSpace = true ∨ y.head?.any isSpace = true

section

variable {T : Tokenizer} {p : Char → Bool} {joint : Char} {x y text tail : Text}

theorem Separated.of_cons {c : Char} (h : Separated (c :: x) y) : Separated x y := by
  cases x with
  | nil => exact .inl rfl
  | cons d x =>
    rcases h with h | h | h | h
    · cases h
    · exact .inr (.inl h)
    · rw [List.getLast?_cons_cons] at h
      exact .inr (.inr (.inl h))
    · exact .inr (.inr (.inr h))

theorem Separated.of_append {z : Text} (h : Separated (z ++ x) y) : Separated x y := by
  induction z with
  | nil => exact h
  | cons c z ih => exact ih h.of_cons

theorem Tokenizer.Kind.not_space (hd : T.Decimals) (hk : T.Kind p joint) {c : Char} (hc : p c = true) :
    isSpace c = false := by
  cases hk with
  | word =>
    obtain ⟨hlow, hhigh⟩ := isAlpha_range hc
    simp only [isSpace, Bool.or_eq_false_iff, Bool.and_eq_false_iff, decide_eq_false_iff_not, beq_eq_false_iff_ne]
    omega
  | number => exact (hd c hc).2.2.1

theorem Tokenizer.Kind.joint_not_space (hk : T.Kind p joint) : isSpace joint = false := by
  cases hk with
  | word => decide
  | number => decide

theorem Joined.last (h : Joined p joint text tail) {c : Char} (hc : text.getLast? = some c) : p c = true := by
  cases h with
  | run ha _ _ => exact ha c (List.mem_of_getLast? hc)
  | @joined a b hsplit _ hb _ hb' _ =>
    rw [hsplit, List.getLast?_append_cons] at hc
    cases b with
    | nil => exact absurd rfl hb
    | cons d b =>
      rw [List.getLast?_cons_cons] at hc
      exact hb' c (List.mem_of_getLast? hc)

/-- Behind a word or a number white space begins, if it is separated from what follows. -/
theorem Separated.after_run (hd : T.Decimals) (hk : T.Kind p joint) (hjoined : Joined p joint text tail) (hne : text ≠ [])
    (h : Separated text y) : ∀ c rest, y = c :: rest → isSpace c = true := by
  rintro c rest rfl
  rcases h with h | h | h | h
  · exact absurd h hne
  · cases h
  · cases hlast : text.getLast? with
    | none => exact absurd (List.getLast?_eq_none_iff.mp hlast) hne
    | some d =>
      rw [hlast, Option.any_some, hk.not_space hd (hjoined.last hlast)] at h
      cases h
  · exact h

theorem Joined.append (hd : T.Decimals) (hk : T.Kind p joint) (hjoined : Joined p joint text tail) (hne : text ≠ [])
    (h : Separated (text ++ tail) y) : Joined p joint text (tail ++ y) := by
  have hspace : ∀ {c : Char}, isSpace c = true → p c = false := by
    intro c hc
    rw [← Bool.not_eq_true]
    intro hp
    rw [hk.not_space hd hp] at hc
    cases hc
  have hstops : Stops p tail → Stops p (tail ++ y) := by
    intro hstops c rest hcons
    cases tail with
    | nil =>
      rw [List.append_nil] at h
      exact hspace (h.after_run hd hk hjoined hne c rest hcons)
    | cons d tail =>
      cases hcons
      exact hstops c tail rfl
  have hunjoined : Unjoined p joint tail → Unjoined p joint (tail ++ y) := by
    intro hunjoined c rest hcons
    cases tail with
    | nil =>
      rw [List.append_nil] at h
      have hjoint := h.after_run hd hk hjoined hne joint (c :: rest) hcons
      rw [hk.joint_not_space] at hjoint
      cases hjoint
    | cons d tail =>
      cases tail with
      | nil =>
        rw [List.cons_append, List.nil_append, List.cons.injEq] at hcons
        obtain ⟨rfl, rfl⟩ := hcons
        rcases (h.of_append : Separated [d] (c :: rest)) with hsep | hsep | hsep | hsep
        · cases hsep
        · cases hsep
        · rw [List.getLast?_singleton, Option.any_some, hk.joint_not_space] at hsep
          cases hsep
        · exact hspace hsep
      | cons e tail =>
        cases hcons
        exact hunjoined c tail rfl
  cases hjoined with
  | run ha hs hu => exact .run ha (hstops hs) (hunjoined hu)
  | joined hsplit ha hb ha' hb' hs => exact .joined hsplit ha hb ha' hb' (hstops hs)

/-- A token stays a token where a separated text is added. -/
theorem fallbackToken_append (hd : T.Decimals) {word : Bool} (htoken : fallbackToken T (text ++ tail) = some (text.length, word))
    (hne : text ≠ []) (h : Separated (text ++ tail) y) :
    fallbackToken T (text ++ (tail ++ y)) = some (text.length, word) := by
  cases word with
  | true =>
    obtain ⟨p, joint, hk, hjoined⟩ := joined_of_fallbackToken hd htoken hne
    exact (hjoined.append hd hk hne h).fallbackToken hd hk hne
  | false =>
    obtain ⟨c, rest, rfl⟩ := List.exists_cons_of_ne_nil hne
    obtain ⟨hlength, hall⟩ := fallbackToken_single htoken
    rw [hlength, List.cons_append]
    exact hall _

/-- The weights of separated texts add up. -/
theorem tokenSum_append (hd : T.Decimals) (h : Separated x y) : tokenSum T (x ++ y) = tokenSum T x + tokenSum T y := by
  induction x using tokens_induction (T := T) with
  | nil => rw [List.nil_append, tokenSum_nil, Nat.zero_add]
  | blank c rest hc ih => rw [List.cons_append, tokenSum_blank (hc _), tokenSum_blank (hc _), ih h.of_cons]
  | token text tail word hne htoken ih =>
    rw [List.append_assoc, tokenSum_token (fallbackToken_append hd htoken hne h) hne, tokenSum_token htoken hne,
      ih h.of_append, Nat.add_assoc]

end

/-! ## Pieces of a word or a number -/

/-- What a cut word or number is made of: a run, or two with the joint, of which each may be empty. -/
inductive Piece (p : Char → Bool) (joint : Char) : Text → Prop
  | run {a : Text} : (∀ c ∈ a, p c = true) → Piece p joint a
  | joined {a b : Text} : (∀ c ∈ a, p c = true) → (∀ c ∈ b, p c = true) → Piece p joint (a ++ joint :: b)

section

variable {T : Tokenizer} {p : Char → Bool} {joint : Char} {a b x y z text tail : Text}

theorem Joined.piece (h : Joined p joint text tail) : Piece p joint text := by
  cases h with
  | run ha _ _ => exact .run ha
  | joined hsplit _ _ ha hb _ =>
    subst hsplit
    exact .joined ha hb

/-- Where a joined run is cut in two, the joint goes with one of them. -/
theorem append_eq_joined (h : x ++ y = a ++ joint :: b) :
    (∃ a', a = x ++ a' ∧ y = a' ++ joint :: b) ∨ (∃ b', x = a ++ joint :: b' ∧ b = b' ++ y) := by
  rcases List.append_eq_append_iff.mp h with ⟨a', ha, hy⟩ | ⟨c', hx, hb⟩
  · exact .inl ⟨a', ha, hy⟩
  · cases c' with
    | nil => exact .inl ⟨[], by simpa using hx.symm, by simpa using hb.symm⟩
    | cons c b' =>
      rw [List.cons_append, List.cons.injEq] at hb
      obtain ⟨rfl, rfl⟩ := hb
      exact .inr ⟨b', hx, rfl⟩

theorem Piece.append (h : Piece p joint (x ++ y)) : Piece p joint x ∧ Piece p joint y := by
  generalize hz : x ++ y = z at h
  cases h with
  | run ha =>
    subst hz
    rw [List.forall_mem_append] at ha
    exact ⟨.run ha.1, .run ha.2⟩
  | joined ha hb =>
    rcases append_eq_joined hz with ⟨a', rfl, rfl⟩ | ⟨b', rfl, rfl⟩
    · rw [List.forall_mem_append] at ha
      exact ⟨.run ha.1, .joined ha.2 hb⟩
    · rw [List.forall_mem_append] at hb
      exact ⟨.joined ha hb.1, .run hb.2⟩

theorem tokenSum_run (hd : T.Decimals) (hk : T.Kind p joint) (ha : ∀ c ∈ a, p c = true) :
    tokenSum T a = runWeight a.length := by
  by_cases hne : a = []
  · rw [hne]
    rfl
  · have htoken := (Joined.run ha Stops.nil Unjoined.nil : Joined p joint a []).fallbackToken hd hk hne
    have hsum := tokenSum_token htoken hne
    rw [List.append_nil, tokenSum_nil, tokenWeight_word (List.length_eq_zero_iff.not.mpr hne)] at hsum
    exact hsum

theorem tokenSum_joined (hd : T.Decimals) (hk : T.Kind p joint) (ha : ∀ c ∈ a, p c = true) (hb : ∀ c ∈ b, p c = true) :
    tokenSum T (a ++ joint :: b) = if a = [] ∨ b = [] then runWeight a.length + 1 + runWeight b.length
      else runWeight (a.length + 1 + b.length) := by
  by_cases hempty : a = []
  · rw [if_pos (.inl hempty), hempty, List.nil_append, tokenSum_joint hd hk, tokenSum_run hd hk hb]
    rfl
  · by_cases hbempty : b = []
    · rw [if_pos (.inr hbempty), hbempty]
      have hstops : Stops p [joint] := by
        intro c rest h
        cases h
        exact hk.joint_false hd
      have hunjoined : Unjoined p joint [joint] := by
        intro c rest h
        cases h
      have htoken := (Joined.run ha hstops hunjoined).fallbackToken hd hk hempty
      rw [tokenSum_token htoken hempty, tokenWeight_word (List.length_eq_zero_iff.not.mpr hempty), tokenSum_joint hd hk]
      rfl
    · rw [if_neg (by simp [hempty, hbempty])]
      have hne : a ++ joint :: b ≠ [] := by simp
      have htoken := (Joined.joined rfl hempty hbempty ha hb Stops.nil :
        Joined p joint (a ++ joint :: b) []).fallbackToken hd hk hne
      have hsum := tokenSum_token htoken hne
      rw [List.append_nil, tokenSum_nil, tokenWeight_word (List.length_eq_zero_iff.not.mpr hne)] at hsum
      rw [hsum, List.length_append, List.length_cons, Nat.add_zero]
      congr 1
      omega

/-- Cutting a piece in two does not make it lighter. -/
theorem Piece.subadditive (hd : T.Decimals) (hk : T.Kind p joint) (h : Piece p joint (x ++ y)) :
    tokenSum T (x ++ y) ≤ tokenSum T x + tokenSum T y := by
  generalize hz : x ++ y = z at h
  cases h with
  | run ha =>
    subst hz
    rw [tokenSum_run hd hk ha]
    rw [List.forall_mem_append] at ha
    rw [tokenSum_run hd hk ha.1, tokenSum_run hd hk ha.2, List.length_append]
    simp only [runWeight]
    omega
  | @joined a b ha hb =>
    rw [tokenSum_joined hd hk ha hb]
    rcases append_eq_joined hz with ⟨a', rfl, rfl⟩ | ⟨b', rfl, rfl⟩
    · rw [List.forall_mem_append] at ha
      rw [tokenSum_run hd hk ha.1, tokenSum_joined hd hk ha.2 hb]
      by_cases hx : x = []
      · simp [hx, runWeight]
      · by_cases hb' : b = []
        · simp only [hb', or_true, if_true, List.length_append, runWeight]
          omega
        · simp only [List.append_eq_nil_iff, hx, hb', false_and, or_false, if_false, List.length_append]
          by_cases ha' : a' = []
          · simp only [ha', if_true, List.length_nil, runWeight]
            omega
          · simp only [ha', if_false, runWeight]
            omega
    · rw [List.forall_mem_append] at hb
      rw [tokenSum_joined hd hk ha hb.1, tokenSum_run hd hk hb.2]
      by_cases hy : y = []
      · simp [hy, runWeight]
      · by_cases ha' : a = []
        · simp only [ha', true_or, if_true, List.length_append, runWeight]
          omega
        · simp only [List.append_eq_nil_iff, hy, ha', and_false, or_self, false_or, if_false, List.length_append]
          by_cases hb' : b' = []
          · simp only [hb', if_true, List.length_nil, runWeight]
            omega
          · simp only [hb', if_false, runWeight]
            omega

theorem Piece.tokenSum_le (hd : T.Decimals) (hk : T.Kind p joint) (h : Piece p joint z) (hne : z ≠ []) :
    tokenSum T z ≤ runWeight (z.length - 1) + 1 := by
  have hlength := List.length_pos_iff.mpr hne
  cases h with
  | run ha =>
    rw [tokenSum_run hd hk ha]
    simp only [runWeight]
    omega
  | @joined a b ha hb =>
    rw [tokenSum_joined hd hk ha hb, List.length_append, List.length_cons]
    split
    · rename_i hempty
      rcases hempty with rfl | rfl
      · simp only [List.length_nil, runWeight]
        omega
      · simp only [List.length_nil, runWeight]
        omega
    · simp only [runWeight]
      omega

/-- A piece of full weight is a word or a number. -/
theorem Piece.whole_iff (hd : T.Decimals) (hk : T.Kind p joint) (h : Piece p joint z) {size : Nat} (hsize : 0 < size)
    (hlength : z.length = size * 4) : fallbackToken T z = some (z.length, true) ↔ tokenSum T z ≤ size := by
  have hne : z ≠ [] := by
    rintro rfl
    simp at hlength
    omega
  constructor
  · intro htoken
    have hsum := @tokenSum_token T z [] true (by rwa [List.append_nil]) hne
    rw [List.append_nil, tokenSum_nil, tokenWeight_word (by omega)] at hsum
    rw [hsum, hlength]
    simp only [runWeight]
    omega
  · intro hle
    cases h with
    | run ha =>
      have htoken := (Joined.run ha Stops.nil Unjoined.nil : Joined p joint z []).fallbackToken hd hk hne
      rwa [List.append_nil] at htoken
    | @joined a b ha hb =>
      rw [tokenSum_joined hd hk ha hb] at hle
      rw [List.length_append, List.length_cons] at hlength
      split at hle
      · rename_i hempty
        rcases hempty with rfl | rfl
        · simp only [List.length_nil, runWeight] at hle hlength
          omega
        · simp only [List.length_nil, runWeight] at hle hlength
          omega
      · rename_i hfull
        rw [not_or] at hfull
        have htoken := (Joined.joined rfl hfull.1 hfull.2 ha hb Stops.nil :
          Joined p joint (a ++ joint :: b) []).fallbackToken hd hk hne
        rwa [List.append_nil] at htoken

/-- Nothing joins on to a run that is a word or a number where it stands. -/
theorem run_in_place (hd : T.Decimals) (hk : T.Kind p joint) (ha : ∀ c ∈ a, p c = true) (hne : a ≠ [])
    (h : fallbackToken T (a ++ tail) = some (a.length, true)) : Stops p tail ∧ Unjoined p joint tail := by
  have hhead : ∀ c rest, a = c :: rest → p c = true := by
    rintro c rest rfl
    exact ha c List.mem_cons_self
  obtain ⟨c, rest, hcons⟩ := List.exists_cons_of_ne_nil hne
  have hrun : joinedRun p joint (a ++ tail) = a.length := by
    rw [hcons, List.cons_append] at h ⊢
    rw [fallbackToken_kind hd hk (hhead c rest hcons)] at h
    exact congrArg Prod.fst (Option.some.inj h)
  cases joined_of_joinedRun (hk.joint_false hd) hhead hne hrun with
  | run _ hstops hunjoined => exact ⟨hstops, hunjoined⟩
  | joined hsplit _ _ _ _ _ =>
    have hjoint := ha joint (by simp [hsplit])
    rw [hk.joint_false hd] at hjoint
    cases hjoint

/-- The end of a token weighs the same whatever follows, if the last part of it is a word or a number where it
stands. -/
theorem tokenSum_end {front middle last : Text} (hd : T.Decimals) (hk : T.Kind p joint)
    (htoken : Joined p joint (front ++ (middle ++ last)) tail) (hne : last ≠ [])
    (hlast : fallbackToken T (last ++ tail) = some (last.length, true)) {more : Text} (hmore : more <+: tail) :
    tokenSum T (middle ++ last ++ more) = tokenSum T (middle ++ last) + tokenSum T more := by
  have hz : middle ++ last ≠ [] := by simp [hne]
  have hone : ∀ {z : Text}, z ≠ [] → Joined p joint z tail → tokenSum T (z ++ more) = tokenSum T z + tokenSum T more := by
    intro z hz hjoined
    have h₁ := tokenSum_token ((hjoined.of_prefix hmore).fallbackToken hd hk hz) hz
    have h₂ := tokenSum_token ((hjoined.of_prefix (List.nil_prefix)).fallbackToken hd hk hz) hz
    rw [List.append_nil, tokenSum_nil] at h₂
    rw [h₁, h₂]
    rfl
  have hrun : ∀ {b : Text}, b ≠ [] → (∀ c ∈ b, p c = true) → (∀ c ∈ last, p c = true) →
      tokenSum T (b ++ more) = tokenSum T b + tokenSum T more := by
    intro b hb hall hlast'
    obtain ⟨hstops, hunjoined⟩ := run_in_place hd hk hlast' hne hlast
    exact hone hb (.run hall hstops hunjoined)
  cases htoken with
  | run ha _ _ =>
    rw [List.forall_mem_append] at ha
    exact hrun hz ha.2 fun c hc => ha.2 c (List.mem_append_right _ hc)
  | @joined a b hsplit _ hb ha' hb' hstops =>
    rcases append_eq_joined hsplit with ⟨a', rfl, htail⟩ | ⟨b', rfl, rfl⟩
    · rw [htail]
      rw [List.forall_mem_append] at ha'
      by_cases hempty : a' = []
      · rw [hempty, List.nil_append, List.cons_append, tokenSum_joint hd hk, tokenSum_joint hd hk, hrun hb hb' ?_,
          Nat.add_assoc]
        rw [hempty, List.nil_append] at htail
        cases middle with
        | nil =>
          rw [List.nil_append] at htail
          rw [htail, List.cons_append, fallbackToken_joint hd hk] at hlast
          simp at hlast
        | cons c middle =>
          rw [List.cons_append, List.cons.injEq] at htail
          intro d hdmem
          exact hb' d (htail.2 ▸ List.mem_append_right _ hdmem)
      · exact hone (by simp) (.joined rfl hempty hb ha'.2 hb' hstops)
    · rw [List.forall_mem_append] at hb'
      exact hrun hz hb'.2 fun c hc => hb'.2 c (List.mem_append_right _ hc)

end

end YiQiao
