import Mathlib.Algebra.Order.BigOperators.Group.List
import Mathlib.Algebra.Order.Group.Nat
import Mathlib.Data.List.Chain
import YiQiao.Import.Weights

/-!
# Parts within their budget

The cutting without an encoder weighs what is left of a cut word or number by itself. The parts keep the budget where
that is a word or a number in its place; a cut beside the apostrophe or the point is not.
-/

namespace YiQiao

open Lib

variable {T : Tokenizer}

/-! ## Matches in their place -/

/-- The text from the first of the matches on. -/
def following (found : List FallbackMatch) (trailing : Text) : Text :=
  (found.map FallbackMatch.text).flatten ++ trailing

theorem following_cons (m : FallbackMatch) (found : List FallbackMatch) (trailing : Text) :
    following (m :: found) trailing = m.gap ++ (m.token ++ following found trailing) := by
  simp [following, FallbackMatch.text]

/-- No token begins in the text. -/
def BlankText (T : Tokenizer) (text : Text) : Prop := ∀ c ∈ text, ∀ rest, fallbackToken T (c :: rest) = none

/-- Every match is the token that the text has where it stands. -/
def InPlace (T : Tokenizer) : List FallbackMatch → Text → Prop
  | [], trailing => BlankText T trailing
  | m :: found, trailing => BlankText T m.gap ∧ m.token ≠ [] ∧
      fallbackToken T (m.token ++ following found trailing) = some (m.token.length, m.word) ∧ InPlace T found trailing

theorem fallbackMatches_inPlace {fuel : Nat} {gap text : Text} (hgap : BlankText T gap) (h : text.length ≤ fuel) :
    InPlace T (fallbackMatches T fuel gap text).1 (fallbackMatches T fuel gap text).2 := by
  induction fuel generalizing gap text with
  | zero =>
    obtain rfl := List.length_eq_zero_iff.mp (Nat.le_zero.mp h)
    rw [fallbackMatches, List.append_nil]
    exact hgap
  | succ fuel ih =>
    cases text with
    | nil => exact hgap
    | cons c rest =>
      rw [List.length_cons] at h
      unfold fallbackMatches
      dsimp only
      cases htoken : fallbackToken T (c :: rest) with
      | none =>
        apply ih _ (by omega)
        intro d hd
        rcases List.mem_append.mp hd with hd | hd
        · exact hgap d hd
        · rw [List.mem_singleton.mp hd]
          exact fallbackToken_none htoken
      | some found =>
        obtain ⟨length, word⟩ := found
        have hpos := fallbackToken_pos htoken
        have hle := fallbackToken_le htoken
        have htake : ((c :: rest).take length).length = length := by
          rw [List.length_take]
          omega
        have hblank : BlankText T [] := fun d hd => absurd hd List.not_mem_nil
        have hdrop : ((c :: rest).drop length).length ≤ fuel := by
          rw [List.length_drop, List.length_cons]
          omega
        refine ⟨hgap, ?_, ?_, ih hblank hdrop⟩
        · intro hnil
          dsimp only at hnil
          rw [hnil] at htake
          rw [← htake] at hpos
          cases hpos
        · dsimp only
          rw [following, fallbackMatches_text, List.nil_append, List.take_append_drop, htake, htoken]

theorem fallbackTokens_inPlace (text : Text) : InPlace T (fallbackTokens T text).1 (fallbackTokens T text).2 :=
  fallbackMatches_inPlace (fun _ hd => absurd hd List.not_mem_nil) le_rfl

theorem fallbackTokens_following (text : Text) : following (fallbackTokens T text).1 (fallbackTokens T text).2 = text :=
  fallbackMatches_text _ _ _

theorem heavy_word {maxTokens : Nat} (hmax : 1 ≤ maxTokens) {m : FallbackMatch} (h : maxTokens < m.weight) :
    m.word = true ∧ maxTokens * 4 < m.token.length := by
  rw [FallbackMatch.weight, tokenWeight] at h
  split at h
  · rename_i hword
    exact ⟨hword, by omega⟩
  · omega

/-! ## Where a long token is cut -/

/-- The last of the cuts in a token. -/
def lastCut (size length : Nat) : Nat := (length - 1) / size * size

theorem lastCut_step {size length : Nat} (hsize : 0 < size) (h : size < length) :
    lastCut size length = size + lastCut size (length - size) := by
  rw [lastCut, lastCut, Nat.div_eq_sub_div hsize (by omega : size ≤ length - 1), Nat.add_mul, Nat.one_mul, Nat.add_comm,
    Nat.sub_right_comm]

theorem lastCut_short {size length : Nat} (h : length ≤ size) (hlength : 0 < length) : lastCut size length = 0 := by
  rw [lastCut, Nat.div_eq_of_lt (by omega), Nat.zero_mul]

theorem cutToken_rest {size fuel : Nat} {token : Text} (hsize : 0 < size) (hne : token ≠ []) (h : token.length ≤ fuel) :
    (cutToken size fuel token).2 = token.drop (lastCut size token.length) ∧
      (token.drop (lastCut size token.length)) ≠ [] ∧ (token.drop (lastCut size token.length)).length ≤ size := by
  have hpos := List.length_pos_iff.mpr hne
  induction fuel generalizing token with
  | zero => omega
  | succ fuel ih =>
    unfold cutToken
    split
    · rename_i hlong
      have hdrop : (token.drop size).length = token.length - size := List.length_drop
      have hrest := @ih (token.drop size) (by rw [← List.length_pos_iff]; omega) (by omega) (by omega)
      rw [hdrop, List.drop_drop, ← lastCut_step hsize hlong] at hrest
      exact hrest
    · rename_i hshort
      rw [lastCut_short (by omega) hpos]
      exact ⟨rfl, hne, by rw [List.drop_zero]; omega⟩

theorem mem_cutToken {size fuel : Nat} {token slice : Text} (hsize : 0 < size) (h : token.length ≤ fuel) :
    slice ∈ (cutToken size fuel token).1 ↔
      ∃ k, (k + 1) * size < token.length ∧ slice = (token.drop (k * size)).take size := by
  induction fuel generalizing token with
  | zero =>
    rw [cutToken]
    simp
    omega
  | succ fuel ih =>
    unfold cutToken
    split
    · rename_i hlong
      have hdrop : (token.drop size).length = token.length - size := List.length_drop
      dsimp only
      rw [List.mem_cons, ih (by omega)]
      constructor
      · rintro (rfl | ⟨k, hk, rfl⟩)
        · exact ⟨0, by omega, by simp⟩
        · refine ⟨k + 1, ?_, ?_⟩
          · rw [hdrop] at hk
            have hmul : (k + 1 + 1) * size = (k + 1) * size + size := by rw [Nat.add_mul, Nat.one_mul]
            omega
          · rw [List.drop_drop, Nat.add_mul, Nat.one_mul, Nat.add_comm]
      · rintro ⟨k, hk, rfl⟩
        cases k with
        | zero => exact .inl (by simp)
        | succ k =>
          refine .inr ⟨k, ?_, ?_⟩
          · have hmul : (k + 1 + 1) * size = (k + 1) * size + size := by rw [Nat.add_mul, Nat.one_mul]
            omega
          · rw [List.drop_drop, Nat.add_mul, Nat.one_mul, Nat.add_comm]
    · rename_i hshort
      constructor
      · intro hmem
        cases hmem
      · rintro ⟨k, hk, -⟩
        have hmul : (k + 1) * size = k * size + size := by rw [Nat.add_mul, Nat.one_mul]
        omega

/-! ## The part that has begun -/

/-- Whatever follows it, the text weighs this much. -/
def Settles (T : Tokenizer) (text : Text) (used : Nat) (tail : Text) : Prop :=
  ∀ more, more <+: tail → tokenSum T (text ++ more) = used + tokenSum T more

section

variable {pending gap token tail : Text} {used : Nat}

theorem Settles.nil : Settles T [] 0 tail := by
  intro more _
  rw [List.nil_append, Nat.zero_add]

theorem Settles.weight (h : Settles T pending used tail) : tokenSum T pending = used := by
  have hsum := h [] List.nil_prefix
  rwa [List.append_nil, tokenSum_nil, Nat.add_zero] at hsum

theorem Settles.add_gap (h : Settles T pending used (gap ++ tail)) (hgap : BlankText T gap) :
    Settles T (pending ++ gap) used tail := by
  intro more hmore
  rw [List.append_assoc, h (gap ++ more) ((List.prefix_append_right_inj gap).mpr hmore), tokenSum_blanks hgap]

theorem Settles.add_token (hd : T.Decimals) {word : Bool} (h : Settles T pending used (token ++ tail)) (hne : token ≠ [])
    (htoken : fallbackToken T (token ++ tail) = some (token.length, word)) :
    Settles T (pending ++ token) (used + tokenWeight token.length word) tail := by
  intro more hmore
  rw [List.append_assoc, h (token ++ more) ((List.prefix_append_right_inj token).mpr hmore),
    tokenSum_token (fallbackToken_init hd htoken hne hmore) hne, Nat.add_assoc]

end

/-! ## The steps of the cutting -/

section

variable {maxTokens used : Nat} {pending trailing : Text} {m : FallbackMatch} {rest : List FallbackMatch}

/-- A part that has begun, where there is something in it. -/
def flushText (text : Text) : List Text := if text = [] then [] else [text]

theorem fallbackParts_fits (hfits : used + m.weight ≤ maxTokens) :
    fallbackParts T maxTokens pending used (m :: rest) trailing =
      fallbackParts T maxTokens (pending ++ m.gap ++ m.token) (used + m.weight) rest trailing := by
  rw [FallbackMatch.weight] at *
  rw [fallbackParts]
  dsimp only
  rw [if_neg (by omega : ¬ maxTokens < tokenWeight m.token.length m.word)]
  have hopen : ¬ (used ≠ 0 ∧ maxTokens < used + tokenWeight m.token.length m.word) := by omega
  simp only [if_neg hopen, List.nil_append]

theorem fallbackParts_full (hlight : m.weight ≤ maxTokens) (hfull : maxTokens < used + m.weight) :
    fallbackParts T maxTokens pending used (m :: rest) trailing =
      (pending ++ m.gap) :: fallbackParts T maxTokens m.token m.weight rest trailing := by
  rw [FallbackMatch.weight] at *
  rw [fallbackParts]
  dsimp only
  rw [if_neg (by omega : ¬ maxTokens < tokenWeight m.token.length m.word)]
  have hclosed : used ≠ 0 ∧ maxTokens < used + tokenWeight m.token.length m.word := by omega
  simp only [if_pos hclosed, List.nil_append, Nat.zero_add, List.singleton_append]

theorem fallbackParts_heavy {tail : Text} (hsettles : Settles T pending used tail) (hheavy : maxTokens < m.weight) :
    fallbackParts T maxTokens pending used (m :: rest) trailing = flushText (pending ++ m.gap) ++
      ((cutToken (charactersPerPart maxTokens m.token) m.token.length m.token).1 ++
        fallbackParts T maxTokens (cutToken (charactersPerPart maxTokens m.token) m.token.length m.token).2
          (fallbackTokenWeight T (cutToken (charactersPerPart maxTokens m.token) m.token.length m.token).2) rest
          trailing) := by
  rw [FallbackMatch.weight] at hheavy
  rw [fallbackParts]
  dsimp only
  rw [if_pos hheavy]
  by_cases hused : used = 0
  · have hopen : ¬ (used ≠ 0 ∧ maxTokens < used + tokenWeight m.token.length m.word) := by omega
    simp only [if_neg hopen, List.nil_append, flushText, List.append_assoc]
  · have hclosed : used ≠ 0 ∧ maxTokens < used + tokenWeight m.token.length m.word := by omega
    have hne : pending ++ m.gap ≠ [] := by
      intro hnil
      rw [List.append_eq_nil_iff] at hnil
      have hweight := hsettles.weight
      rw [hnil.1, tokenSum_nil] at hweight
      exact hused hweight.symm
    simp only [if_pos hclosed, if_true, flushText, if_neg hne, List.append_assoc, List.nil_append]

end

/-! ## Tokens that are cut -/

/-- What is left behind the last cut is a word or a number where it stands. -/
def RestWhole (T : Tokenizer) (maxTokens : Nat) (token tail : Text) : Prop :=
  fallbackToken T (token.drop (lastCut (charactersPerPart maxTokens token) token.length) ++ tail) =
    some ((token.drop (lastCut (charactersPerPart maxTokens token) token.length)).length, true)

/-- What stands between two cuts is a word or a number, where a part holds four characters for each token. -/
def SlicesWhole (T : Tokenizer) (maxTokens : Nat) (token : Text) : Prop :=
  token.head?.any Char.isAlphanum = true → ∀ k, (k + 1) * (maxTokens * 4) < token.length →
    fallbackToken T ((token.drop (k * (maxTokens * 4))).take (maxTokens * 4)) = some (maxTokens * 4, true)

/-- Every token that is cut keeps what is left of it whole. -/
def RestsWhole (T : Tokenizer) (maxTokens : Nat) : List FallbackMatch → Text → Prop
  | [], _ => True
  | m :: found, trailing =>
      (maxTokens < m.weight → RestWhole T maxTokens m.token (following found trailing)) ∧
        RestsWhole T maxTokens found trailing

section

variable {maxTokens : Nat} {m : FallbackMatch} {token slice tail : Text}

theorem charactersPerPart_pos (hmax : 1 ≤ maxTokens) (token : Text) : 0 < charactersPerPart maxTokens token := by
  rw [charactersPerPart]
  split
  · omega
  · omega

/-- The slices of a token are pieces of it of full length. -/
theorem slice_piece (hmax : 1 ≤ maxTokens) {p : Char → Bool} {joint : Char} (hjoined : Joined p joint token tail)
    (h : slice ∈ (cutToken (charactersPerPart maxTokens token) token.length token).1) :
    Piece p joint slice ∧ slice.length = charactersPerPart maxTokens token := by
  obtain ⟨k, hk, rfl⟩ := (mem_cutToken (charactersPerPart_pos hmax token) le_rfl).mp h
  have hpiece := hjoined.piece
  generalize charactersPerPart maxTokens token = size at *
  rw [← List.take_append_drop (k * size) token] at hpiece
  have hdropped := hpiece.append.2
  rw [← List.take_append_drop size (token.drop (k * size))] at hdropped
  refine ⟨hdropped.append.1, ?_⟩
  have hmul : (k + 1) * size = k * size + size := by rw [Nat.add_mul, Nat.one_mul]
  rw [List.length_take, List.length_drop]
  omega

/-- A slice is at most one token too heavy, and only where it is no word and no number. -/
theorem slice_weight (hd : T.Decimals) (hmax : 1 ≤ maxTokens) {p : Char → Bool} {joint : Char} (hk : T.Kind p joint)
    (hjoined : Joined p joint token tail)
    (h : slice ∈ (cutToken (charactersPerPart maxTokens token) token.length token).1) :
    tokenSum T slice ≤ maxTokens + 1 ∧ (SlicesWhole T maxTokens token → tokenSum T slice ≤ maxTokens) := by
  obtain ⟨hpiece, hlength⟩ := slice_piece hmax hjoined h
  have hne : slice ≠ [] := by
    rintro rfl
    have hpos := charactersPerPart_pos hmax token
    simp at hlength
    omega
  have hle := hpiece.tokenSum_le hd hk hne
  rw [charactersPerPart] at hlength
  split at hlength
  · rename_i hascii
    rw [hlength] at hle
    simp only [runWeight] at hle
    refine ⟨by omega, fun hwhole => ?_⟩
    obtain ⟨k, hk', rfl⟩ := (mem_cutToken (charactersPerPart_pos hmax token) le_rfl).mp h
    rw [charactersPerPart, if_pos hascii] at hk' hpiece hlength ⊢
    rw [← hpiece.whole_iff hd hk hmax hlength, hlength]
    exact hwhole hascii k hk'
  · rw [hlength] at hle
    simp only [runWeight] at hle
    omega

/-- The rest of a token weighs what the cutting takes it to weigh. -/
theorem rest_weight (hd : T.Decimals) (hmax : 1 ≤ maxTokens) (hne : token ≠ []) (h : RestWhole T maxTokens token tail) :
    let rest := (cutToken (charactersPerPart maxTokens token) token.length token).2
    Settles T rest (fallbackTokenWeight T rest) tail ∧ fallbackTokenWeight T rest ≤ maxTokens ∧ rest ≠ [] ∧
      fallbackToken T (rest ++ tail) = some (rest.length, true) := by
  dsimp only
  obtain ⟨hrest, hne', hle⟩ := cutToken_rest (charactersPerPart_pos hmax token) hne le_rfl
  rw [RestWhole, ← hrest] at h
  rw [← hrest] at hne' hle
  generalize (cutToken (charactersPerPart maxTokens token) token.length token).2 = rest at *
  have halone := fallbackToken_init hd h hne' List.nil_prefix
  rw [List.append_nil] at halone
  have hweight : fallbackTokenWeight T rest = tokenWeight rest.length true := by
    rw [fallbackTokenWeight, halone]
    simp
  have hpos := List.length_pos_iff.mpr hne'
  refine ⟨?_, ?_, hne', h⟩
  · have hsettles := @Settles.add_token T [] rest tail 0 hd true .nil hne' h
    rwa [List.nil_append, Nat.zero_add, ← hweight] at hsettles
  · rw [hweight, tokenWeight_word (by omega), runWeight]
    rw [charactersPerPart] at hle
    split at hle
    · omega
    · omega

end

/-! ## Every part keeps the budget -/

/-- The parts weigh at most the budget, the slices at most what they are allowed. -/
theorem fallbackParts_le (hd : T.Decimals) {maxTokens limit : Nat} (hmax : 1 ≤ maxTokens) (hlimit : maxTokens ≤ limit)
    {found : List FallbackMatch} {trailing pending : Text} {used : Nat} (hplace : InPlace T found trailing)
    (hsettles : Settles T pending used (following found trailing)) (hused : used ≤ maxTokens)
    (hrests : RestsWhole T maxTokens found trailing)
    (hslices : ∀ m ∈ found, maxTokens < m.weight →
      ∀ slice ∈ (cutToken (charactersPerPart maxTokens m.token) m.token.length m.token).1, tokenSum T slice ≤ limit) :
    ∀ part ∈ fallbackParts T maxTokens pending used found trailing, tokenSum T part ≤ limit := by
  induction found generalizing pending used with
  | nil =>
    intro part hpart
    have hblank : BlankText T trailing := hplace
    rw [fallbackParts] at hpart
    split at hpart
    · cases hpart
    · rw [List.mem_singleton.mp hpart]
      have hend : following [] trailing = trailing ++ [] := by simp [following]
      rw [hend] at hsettles
      rw [(hsettles.add_gap hblank).weight]
      exact hused.trans hlimit
  | cons m found ih =>
    obtain ⟨hgap, hne, htoken, hplace⟩ := hplace
    obtain ⟨hrest, hrests⟩ := hrests
    obtain ⟨hslice, hslices⟩ := List.forall_mem_cons.mp hslices
    rw [following_cons] at hsettles
    have hclosed := hsettles.add_gap hgap
    by_cases hheavy : maxTokens < m.weight
    · rw [fallbackParts_heavy hsettles hheavy]
      obtain ⟨hrestSettles, hrestLe, -, -⟩ := rest_weight hd hmax hne (hrest hheavy)
      intro part hpart
      rcases List.mem_append.mp hpart with hpart | hpart
      · rw [flushText] at hpart
        split at hpart
        · cases hpart
        · rw [List.mem_singleton.mp hpart, hclosed.weight]
          exact hused.trans hlimit
      · rcases List.mem_append.mp hpart with hpart | hpart
        · exact hslice hheavy part hpart
        · exact ih hplace hrestSettles hrestLe hrests hslices part hpart
    · have hlight : m.weight ≤ maxTokens := not_lt.mp hheavy
      by_cases hfits : used + m.weight ≤ maxTokens
      · rw [fallbackParts_fits hfits]
        exact ih hplace (hclosed.add_token hd hne htoken) hfits hrests hslices
      · rw [fallbackParts_full hlight (not_le.mp hfits)]
        have halone := @Settles.add_token T [] m.token (following found trailing) 0 hd m.word .nil hne htoken
        rw [List.nil_append, Nat.zero_add] at halone
        rw [List.forall_mem_cons]
        refine ⟨?_, ih hplace halone hlight hrests hslices⟩
        rw [hclosed.weight]
        exact hused.trans hlimit

/-! ## Parts joined again -/

/-- No part gets heavier by what is joined to it. -/
def Mergeable (T : Tokenizer) : List Text → Prop
  | [] => True
  | part :: parts => (∀ k, tokenSum T (part ++ (parts.take k).flatten) ≤ tokenSum T part + tokenSum T (parts.take k).flatten) ∧
      Mergeable T parts

section

variable {parts parts' : List Text} {part tail : Text} {used : Nat}

theorem take_flatten_init (parts : List Text) (k : Nat) : (parts.take k).flatten <+: parts.flatten := by
  refine ⟨(parts.drop k).flatten, ?_⟩
  rw [← List.flatten_append, List.take_append_drop]

theorem Mergeable.drop (h : Mergeable T parts) (n : Nat) : Mergeable T (parts.drop n) := by
  induction parts generalizing n with
  | nil => simp [Mergeable]
  | cons part parts ih =>
    cases n with
    | zero => exact h
    | succ n => exact ih h.2 n

theorem Mergeable.take_le (h : Mergeable T parts) (k : Nat) :
    tokenSum T (parts.take k).flatten ≤ ((parts.take k).map (tokenSum T)).sum := by
  induction parts generalizing k with
  | nil => simp
  | cons part parts ih =>
    cases k with
    | zero => simp
    | succ k =>
      have hrest := ih h.2 k
      have hfirst := h.1 k
      rw [List.take_succ_cons, List.flatten_cons, List.map_cons, List.sum_cons]
      omega

/-- Neighbouring parts weigh together at most what they weigh one by one. -/
theorem Mergeable.infix_le (h : Mergeable T parts) {few : List Text} (hfew : few <:+: parts) :
    tokenSum T few.flatten ≤ (few.map (tokenSum T)).sum := by
  obtain ⟨front, back, rfl⟩ := hfew
  have hdrop := h.drop front.length
  rw [List.append_assoc, List.drop_left] at hdrop
  have hle := hdrop.take_le few.length
  rwa [List.take_left] at hle

/-- A part that settles before the others. -/
theorem Mergeable.cons (h : Mergeable T parts) (hsettles : Settles T part used parts.flatten) :
    Mergeable T (part :: parts) := by
  refine ⟨fun k => ?_, h⟩
  rw [hsettles _ (take_flatten_init parts k), hsettles.weight]

theorem Mergeable.flush (h : Mergeable T parts) (hsettles : Settles T part used parts.flatten) :
    Mergeable T (flushText part ++ parts) := by
  rw [flushText]
  split
  · exact h
  · exact h.cons hsettles

theorem Mergeable.append (hd : T.Decimals) (h : Mergeable T parts) (h' : Mergeable T parts')
    (hseparated : ∀ x y, x <:+ parts.flatten → y <+: parts'.flatten → Separated x y) : Mergeable T (parts ++ parts') := by
  induction parts with
  | nil => exact h'
  | cons part parts ih =>
    have hrest := ih h.2 (fun x y hx hy => hseparated x y (by
      obtain ⟨front, hfront⟩ := hx
      exact ⟨part ++ front, by rw [List.flatten_cons, ← hfront, List.append_assoc]⟩) hy)
    rw [List.cons_append]
    refine ⟨fun k => ?_, hrest⟩
    have hk := h.1 k
    rw [List.take_append, List.flatten_append]
    have hall : parts.length < k → parts.take k = parts := fun hlt => List.take_of_length_le hlt.le
    by_cases hlt : parts.length < k
    · rw [hall hlt] at hk ⊢
      have hinit := take_flatten_init parts' (k - parts.length)
      have hpart : parts.flatten <:+ (part :: parts).flatten := by
        rw [List.flatten_cons]
        exact List.suffix_append _ _
      have hall' : part ++ parts.flatten <:+ (part :: parts).flatten := List.suffix_rfl
      rw [← List.append_assoc, tokenSum_append hd (hseparated _ _ hall' hinit),
        tokenSum_append hd (hseparated _ _ hpart hinit)]
      omega
    · have hzero : k - parts.length = 0 := by omega
      rw [hzero, List.take_zero, List.flatten_nil, List.append_nil]
      exact hk

/-- The slices of a token and the part that begins with its rest. -/
theorem mergeable_cut (hd : T.Decimals) {p : Char → Bool} {joint : Char} (hk : T.Kind p joint) {size fuel : Nat}
    {front token more : Text} (hjoined : Joined p joint (front ++ token) tail)
    (hne : (cutToken size fuel token).2 ≠ [])
    (hrest : fallbackToken T ((cutToken size fuel token).2 ++ tail) = some ((cutToken size fuel token).2.length, true))
    (hparts : parts = ((cutToken size fuel token).2 ++ more) :: parts')
    (hflatten : parts.flatten = (cutToken size fuel token).2 ++ tail) (h : Mergeable T parts) :
    Mergeable T ((cutToken size fuel token).1 ++ parts) := by
  induction fuel generalizing front token with
  | zero => exact h
  | succ fuel ih =>
    by_cases hlong : size < token.length
    · rw [cutToken, if_pos hlong] at hne hrest hparts hflatten ⊢
      dsimp only at hne hrest hparts hflatten ⊢
      rw [List.cons_append]
      have hsplit : front ++ token = (front ++ token.take size) ++ token.drop size := by
        rw [List.append_assoc, List.take_append_drop]
      have hrestMergeable := @ih (front ++ token.take size) (token.drop size) (hsplit ▸ hjoined) hne hrest hparts hflatten
      refine ⟨fun k => ?_, hrestMergeable⟩
      have hwhole := cutToken_text size fuel (token.drop size)
      generalize (cutToken size fuel (token.drop size)).1 = slices at *
      generalize (cutToken size fuel (token.drop size)).2 = rest at *
      have hpiece : Piece p joint (token.take size ++ token.drop size) := by
        rw [List.take_append_drop]
        exact hjoined.piece.append.2
      rw [List.take_append, List.flatten_append]
      by_cases hlt : slices.length < k
      · obtain ⟨j, hj⟩ := Nat.exists_eq_add_of_lt hlt
        have hmore : ∃ next, next <+: tail ∧ (parts.take (k - slices.length)).flatten = rest ++ next := by
          have hinit := take_flatten_init parts (k - slices.length)
          have hk' : k - slices.length = j + 1 := by omega
          rw [hflatten] at hinit
          rw [hk', hparts, List.take_succ_cons, List.flatten_cons, List.append_assoc] at hinit ⊢
          exact ⟨_, (List.prefix_append_right_inj rest).mp hinit, rfl⟩
        obtain ⟨next, hnext, hflat⟩ := hmore
        rw [List.take_of_length_le hlt.le, hflat, ← List.append_assoc slices.flatten]
        have hlater := @tokenSum_end T p joint tail (front ++ token.take size) slices.flatten rest hd hk
          (by rw [hwhole, ← hsplit]; exact hjoined) hne hrest next hnext
        have hfirst := @tokenSum_end T p joint tail front (token.take size ++ slices.flatten) rest hd hk
          (by rw [List.append_assoc, hwhole, List.take_append_drop]; exact hjoined) hne hrest next hnext
        rw [List.append_assoc (token.take size)] at hfirst
        rw [hwhole] at hlater hfirst ⊢
        have hle := hpiece.subadditive hd hk
        rw [← List.append_assoc, hfirst, hlater]
        omega
      · have hzero : k - slices.length = 0 := by omega
        rw [hzero, List.take_zero, List.flatten_nil, List.append_nil]
        have hinit : (slices.take k).flatten <+: token.drop size := by
          rw [← hwhole]
          exact (take_flatten_init slices k).trans (List.prefix_append _ _)
        obtain ⟨back, hback⟩ := hinit
        rw [← hback, ← List.append_assoc] at hpiece
        exact hpiece.append.1.subadditive hd hk
    · rw [cutToken, if_neg hlong]
      exact h

end

/-- The first part goes on from what has begun. -/
theorem fallbackParts_begins (hd : T.Decimals) {maxTokens : Nat} {found : List FallbackMatch} {trailing pending : Text}
    {used : Nat} (hplace : InPlace T found trailing) (hsettles : Settles T pending used (following found trailing))
    (hne : pending ≠ []) :
    ∃ more parts, fallbackParts T maxTokens pending used found trailing = (pending ++ more) :: parts := by
  induction found generalizing pending used with
  | nil =>
    rw [fallbackParts, if_neg (by simp [hne])]
    exact ⟨trailing, [], rfl⟩
  | cons m found ih =>
    obtain ⟨hgap, hne', htoken, hplace⟩ := hplace
    rw [following_cons] at hsettles
    have hclosed := hsettles.add_gap hgap
    by_cases hheavy : maxTokens < m.weight
    · rw [fallbackParts_heavy hsettles hheavy, flushText, if_neg (by simp [hne])]
      exact ⟨m.gap, _, rfl⟩
    · by_cases hfits : used + m.weight ≤ maxTokens
      · rw [fallbackParts_fits hfits]
        have hsettles' := hclosed.add_token hd hne' htoken
        rw [← FallbackMatch.weight] at hsettles'
        obtain ⟨more, parts, hparts⟩ := ih hplace hsettles' (by simp [hne])
        refine ⟨m.gap ++ (m.token ++ more), parts, ?_⟩
        rw [hparts]
        simp
      · rw [fallbackParts_full (not_lt.mp hheavy) (not_le.mp hfits)]
        exact ⟨m.gap, _, rfl⟩

theorem fallbackParts_mergeable (hd : T.Decimals) {maxTokens : Nat} (hmax : 1 ≤ maxTokens) {found : List FallbackMatch}
    {trailing pending : Text} {used : Nat} (hplace : InPlace T found trailing)
    (hsettles : Settles T pending used (following found trailing)) (hrests : RestsWhole T maxTokens found trailing) :
    Mergeable T (fallbackParts T maxTokens pending used found trailing) := by
  have hflatten : ∀ (pending : Text) (used : Nat) (found : List FallbackMatch),
      (fallbackParts T maxTokens pending used found trailing).flatten = pending ++ following found trailing := by
    intro pending used found
    rw [fallbackParts_text, following, List.append_assoc]
  induction found generalizing pending used with
  | nil =>
    rw [fallbackParts]
    split
    · trivial
    · exact ⟨fun k => by simp, trivial⟩
  | cons m found ih =>
    obtain ⟨hgap, hne, htoken, hplace⟩ := hplace
    obtain ⟨hrest, hrests⟩ := hrests
    rw [following_cons] at hsettles
    have hclosed := hsettles.add_gap hgap
    by_cases hheavy : maxTokens < m.weight
    · rw [fallbackParts_heavy hsettles hheavy]
      obtain ⟨hrestSettles, -, hne', hwhole⟩ := rest_weight hd hmax hne (hrest hheavy)
      rw [(heavy_word hmax hheavy).1] at htoken
      obtain ⟨p, joint, hk, hjoined⟩ := joined_of_fallbackToken hd htoken hne
      obtain ⟨more, parts, hparts⟩ := @fallbackParts_begins _ hd maxTokens _ _ _ _ hplace hrestSettles hne'
      have hmerged := @mergeable_cut _ _ _ _ hd p joint hk _ _ [] m.token more hjoined hne' hwhole hparts (hflatten _ _ _)
        (ih hplace hrestSettles hrests)
      apply hmerged.flush
      rw [List.flatten_append, hflatten, ← List.append_assoc, cutToken_text]
      exact hclosed
    · by_cases hfits : used + m.weight ≤ maxTokens
      · rw [fallbackParts_fits hfits]
        exact ih hplace (hclosed.add_token hd hne htoken) hrests
      · rw [fallbackParts_full (not_lt.mp hheavy) (not_le.mp hfits)]
        have halone := @Settles.add_token T [] m.token (following found trailing) 0 hd m.word .nil hne htoken
        rw [List.nil_append, Nat.zero_add] at halone
        apply (ih hplace halone hrests).cons
        rw [hflatten]
        exact hclosed

/-! ## Units -/

section

variable {x y x' y' : Text} {units units' : List Text}

theorem Separated.shrink (h : Separated x y) (hx : x' <:+ x) (hy : y' <+: y) : Separated x' y' := by
  by_cases hx' : x' = []
  · exact .inl hx'
  · by_cases hy' : y' = []
    · exact .inr (.inl hy')
    · obtain ⟨front, rfl⟩ := hx
      obtain ⟨back, rfl⟩ := hy
      rcases h with h | h | h | h
      · simp [hx'] at h
      · simp [hy'] at h
      · rw [List.getLast?_append_of_ne_nil _ hx'] at h
        exact .inr (.inr (.inl h))
      · rw [List.head?_append_of_ne_nil _ hy'] at h
        exact .inr (.inr (.inr h))

/-- Neighbouring units are separated, and none is empty. -/
def Spaced (units : List Text) : Prop := units.IsChain Separated ∧ ∀ unit ∈ units, unit ≠ []

theorem Spaced.split (h : Spaced (units ++ units')) : Separated units.flatten units'.flatten := by
  obtain ⟨hchain, hne⟩ := h
  rw [List.isChain_append] at hchain
  cases hlast : units.getLast? with
  | none =>
    rw [List.getLast?_eq_none_iff] at hlast
    exact .inl (by rw [hlast]; rfl)
  | some u =>
    cases units' with
    | nil => exact .inr (.inl rfl)
    | cons v rest =>
      have huv : Separated u v := hchain.2.2 u hlast v rfl
      have hu : u ≠ [] := hne u (List.mem_append_left _ (List.mem_of_getLast? hlast))
      have hv : v ≠ [] := hne v (by simp)
      obtain ⟨init, rfl⟩ := List.getLast?_eq_some_iff.mp hlast
      rw [List.flatten_append, List.flatten_singleton, List.flatten_cons]
      rcases huv with huv | huv | huv | huv
      · exact absurd huv hu
      · exact absurd huv hv
      · refine .inr (.inr (.inl ?_))
        rwa [List.getLast?_append_of_ne_nil _ hu]
      · refine .inr (.inr (.inr ?_))
        rwa [List.head?_append_of_ne_nil _ hv]

theorem Spaced.left (h : Spaced (units ++ units')) : Spaced units :=
  ⟨(List.isChain_append.mp h.1).1, fun u hu => h.2 u (List.mem_append_left _ hu)⟩

theorem Spaced.right (h : Spaced (units ++ units')) : Spaced units' :=
  ⟨(List.isChain_append.mp h.1).2.1, fun u hu => h.2 u (List.mem_append_right _ hu)⟩

theorem Spaced.tail {unit : Text} (h : Spaced (unit :: units)) : Spaced units := @Spaced.right [unit] units h

theorem Spaced.split_head {unit : Text} (h : Spaced (unit :: units)) : Separated [unit].flatten units.flatten :=
  @Spaced.split [unit] units h

/-- Between two pieces stands white space. -/
inductive Alternating : List Text → Prop
  | last (piece : Text) : Alternating [piece]
  | cons (piece : Text) {separator : Text} {rest : List Text} : separator ≠ [] → (∀ c ∈ separator, isSpace c = true) →
      Alternating rest → Alternating (piece :: separator :: rest)

theorem separatorLength_le (previous : Option Char) (text : Text) :
    separatorLength previous text ≤ (text.takeWhile isSpace).length := by
  rw [separatorLength]
  split
  · refine (List.dropWhile_suffix _).length_le.trans ?_
    rw [List.length_reverse]
  · split
    · exact le_rfl
    · exact Nat.zero_le _

theorem splitPieces_alternating (fuel : Nat) (piece : Text) (previous : Option Char) (text : Text) :
    Alternating (splitPieces fuel piece previous text) := by
  induction fuel generalizing piece previous text with
  | zero => exact .last _
  | succ fuel ih =>
    cases text with
    | nil => exact .last _
    | cons c rest =>
      rw [splitPieces]
      split
      · exact ih _ _ _
      · rename_i hlength
        have hle := separatorLength_le previous (c :: rest)
        generalize separatorLength previous (c :: rest) = n at *
        refine .cons _ ?_ ?_ (ih _ _ _)
        · simp [hlength]
        · have hinit : (c :: rest).take n <+: (c :: rest).takeWhile isSpace := by
            apply List.prefix_of_prefix_length_le (List.take_prefix _ _) (List.takeWhile_prefix _)
            exact (List.length_take_le _ _).trans hle
          intro d hd
          exact List.all_eq_true.mp List.all_takeWhile d (hinit.subset hd)

theorem separated_of_space (hne : x ≠ []) (hx : ∀ c ∈ x, isSpace c = true) (y : Text) : Separated x y ∧ Separated y x := by
  constructor
  · refine .inr (.inr (.inl ?_))
    rw [List.getLast?_eq_some_getLast hne, Option.any_some]
    exact hx _ (List.getLast_mem hne)
  · refine .inr (.inr (.inr ?_))
    rw [List.head?_eq_some_head hne, Option.any_some]
    exact hx _ (List.head_mem hne)

theorem Alternating.chain (h : Alternating units) : (units.filter (· ≠ [])).IsChain Separated ∧
    ∀ separator : Text, separator ≠ [] → (∀ c ∈ separator, isSpace c = true) →
      (separator :: units.filter (· ≠ [])).IsChain Separated := by
  have hcons : ∀ {separator : Text} {rest : List Text}, separator ≠ [] → (∀ c ∈ separator, isSpace c = true) →
      rest.IsChain Separated → (separator :: rest).IsChain Separated := by
    intro separator rest hne hspace hrest
    rw [List.isChain_cons]
    exact ⟨fun y _ => (separated_of_space hne hspace y).1, hrest⟩
  induction h with
  | last piece =>
    have hone : ([piece].filter (· ≠ [])).IsChain Separated := by
      by_cases hpiece : piece = []
      · simp [hpiece]
      · simp [hpiece]
    exact ⟨hone, fun separator hne hspace => hcons hne hspace hone⟩
  | @cons piece separator rest hne hspace _ ih =>
    have hrest := ih.2 separator hne hspace
    have hall : ((piece :: separator :: rest).filter (· ≠ [])).IsChain Separated := by
      rw [List.filter_cons, List.filter_cons_of_pos (by simpa using hne)]
      split
      · rw [List.isChain_cons]
        refine ⟨fun y hy => ?_, hrest⟩
        cases hy
        exact (separated_of_space hne hspace piece).2
      · exact hrest
    exact ⟨hall, fun s hs hs' => hcons hs hs' hall⟩

theorem textUnits_spaced (text : Text) : Spaced (textUnits text) := by
  refine ⟨(splitPieces_alternating _ _ _ _).chain.1, fun unit hunit => ?_⟩
  simpa using (List.mem_filter.mp hunit).2

end

/-! ## The parts of a text -/

/-- What is left of every token that is cut is a word or a number where it stands. -/
def TextRestsWhole (T : Tokenizer) (maxTokens : Nat) (text : Text) : Prop :=
  ∀ unit ∈ textUnits text, RestsWhole T maxTokens (fallbackTokens T unit).1 (fallbackTokens T unit).2

/-- What stands between two cuts of a token is a word or a number. -/
def TextSlicesWhole (T : Tokenizer) (maxTokens : Nat) (text : Text) : Prop :=
  ∀ unit ∈ textUnits text, ∀ m ∈ (fallbackTokens T unit).1, maxTokens < m.weight → SlicesWhole T maxTokens m.token

section

variable {maxTokens : Nat} {text unit : Text} {units current : List Text}

theorem token_kind (hd : T.Decimals) (hmax : 1 ≤ maxTokens) {found : List FallbackMatch} {trailing : Text}
    (hplace : InPlace T found trailing) {m : FallbackMatch} (hm : m ∈ found) (hheavy : maxTokens < m.weight) :
    m.token ≠ [] ∧ ∃ p joint tail, T.Kind p joint ∧ Joined p joint m.token tail := by
  induction found with
  | nil => cases hm
  | cons first found ih =>
    obtain ⟨-, hne, htoken, hplace⟩ := hplace
    rcases List.mem_cons.mp hm with rfl | hm
    · rw [(heavy_word hmax hheavy).1] at htoken
      obtain ⟨p, joint, hk, hjoined⟩ := joined_of_fallbackToken hd htoken hne
      exact ⟨hne, p, joint, _, hk, hjoined⟩
    · exact ih hplace hm

theorem slice_mem {found : List FallbackMatch} {pending trailing slice : Text} {used : Nat} {m : FallbackMatch}
    (hm : m ∈ found) (hheavy : maxTokens < m.weight)
    (hslice : slice ∈ (cutToken (charactersPerPart maxTokens m.token) m.token.length m.token).1) :
    slice ∈ fallbackParts T maxTokens pending used found trailing := by
  induction found generalizing pending used with
  | nil => cases hm
  | cons first found ih =>
    unfold fallbackParts
    dsimp only
    rcases List.mem_cons.mp hm with rfl | hm
    · rw [FallbackMatch.weight] at hheavy
      rw [if_pos hheavy]
      exact List.mem_append_left _ (List.mem_append_right _ hslice)
    · split
      · exact List.mem_append_right _ (ih hm)
      · exact List.mem_append_right _ (ih hm)

theorem splitAtomicText_fallback (hnone : T.encode = none) (unit : Text) :
    splitAtomicText T unit maxTokens = splitFallbackText T unit maxTokens := by
  rw [splitAtomicText, hnone]
  rfl

theorem weight_le_estimate (hnone : T.encode = none) {m : FallbackMatch} (hm : m ∈ (fallbackTokens T unit).1) :
    m.weight ≤ estimateTokens T unit := by
  rw [estimateTokens_fallback hnone, tokenSum]
  have hle := List.single_le_sum (fun _ _ => Nat.zero_le _) m.weight (List.mem_map_of_mem hm)
  omega

/-- Units weigh together at most what they are estimated one by one. -/
theorem Spaced.tokenSum_le (hd : T.Decimals) (hnone : T.encode = none) (h : Spaced units) :
    tokenSum T units.flatten ≤ (units.map (estimateTokens T)).sum := by
  induction units with
  | nil => exact le_rfl
  | cons unit units ih =>
    have hsplit : Separated [unit].flatten units.flatten := h.split_head
    rw [List.flatten_singleton] at hsplit
    have hrest := ih h.tail
    rw [List.flatten_cons, tokenSum_append hd hsplit, List.map_cons, List.sum_cons, estimateTokens_fallback hnone unit]
    omega

theorem splitFallbackText_le (hd : T.Decimals) {limit : Nat} (hmax : 1 ≤ maxTokens) (hlimit : maxTokens ≤ limit)
    (hrests : RestsWhole T maxTokens (fallbackTokens T unit).1 (fallbackTokens T unit).2)
    (hslices : ∀ m ∈ (fallbackTokens T unit).1, maxTokens < m.weight →
      ∀ slice ∈ (cutToken (charactersPerPart maxTokens m.token) m.token.length m.token).1, tokenSum T slice ≤ limit) :
    ∀ part ∈ splitFallbackText T unit maxTokens, tokenSum T part ≤ limit := by
  have hparts := fallbackParts_le hd hmax hlimit (fallbackTokens_inPlace unit) .nil (Nat.zero_le _) hrests hslices
  have hflatten := fallbackParts_text (T := T) maxTokens [] 0 (fallbackTokens T unit).1 (fallbackTokens T unit).2
  rw [List.nil_append, ← following, fallbackTokens_following] at hflatten
  intro part hpart
  rw [splitFallbackText] at hpart
  split at hpart
  · rename_i hnil
    rw [hnil, List.flatten_nil] at hflatten
    rw [List.mem_singleton.mp hpart, ← hflatten]
    exact Nat.zero_le _
  · exact hparts part hpart

theorem splitFallbackText_mergeable (hd : T.Decimals) (hmax : 1 ≤ maxTokens)
    (hrests : RestsWhole T maxTokens (fallbackTokens T unit).1 (fallbackTokens T unit).2) :
    Mergeable T (splitFallbackText T unit maxTokens) := by
  rw [splitFallbackText]
  split
  · exact ⟨fun k => by simp, trivial⟩
  · exact fallbackParts_mergeable hd hmax (fallbackTokens_inPlace unit) .nil hrests

theorem partsOfUnits_le (hd : T.Decimals) (hnone : T.encode = none) {limit : Nat} (hlimit : maxTokens ≤ limit)
    (hatomic : ∀ unit ∈ units, ∀ part ∈ splitFallbackText T unit maxTokens, tokenSum T part ≤ limit)
    (hspaced : Spaced (current ++ units)) (hcurrent : (current.map (estimateTokens T)).sum ≤ maxTokens) :
    ∀ part ∈ partsOfUnits T maxTokens current units, tokenSum T part ≤ limit := by
  have hflush : ∀ {current units : List Text}, Spaced (current ++ units) →
      (current.map (estimateTokens T)).sum ≤ maxTokens → tokenSum T current.flatten ≤ limit :=
    fun hspaced hle => (hspaced.left.tokenSum_le hd hnone).trans (hle.trans hlimit)
  induction units generalizing current with
  | nil =>
    intro part hpart
    rw [partsOfUnits] at hpart
    split at hpart
    · cases hpart
    · rw [List.mem_singleton.mp hpart]
      exact hflush hspaced hcurrent
  | cons unit units ih =>
    obtain ⟨hunit, hunits⟩ := List.forall_mem_cons.mp hatomic
    intro part hpart
    unfold partsOfUnits at hpart
    split at hpart
    · rcases List.mem_append.mp hpart with hpart | hpart
      · rcases List.mem_append.mp hpart with hpart | hpart
        · split at hpart
          · cases hpart
          · rw [List.mem_singleton.mp hpart]
            exact hflush hspaced hcurrent
        · rw [splitAtomicText_fallback hnone] at hpart
          exact hunit part hpart
      · have hrest : Spaced ([] ++ units) := hspaced.right.tail
        exact ih hunits hrest (Nat.zero_le _) part hpart
    · rename_i hlight
      split at hpart
      · rcases List.mem_cons.mp hpart with rfl | hpart
        · exact hflush hspaced hcurrent
        · refine ih hunits hspaced.right ?_ part hpart
          rw [List.map_singleton, List.sum_singleton]
          omega
      · rename_i hfits
        refine ih hunits (by rwa [List.append_assoc, List.singleton_append]) ?_ part hpart
        rw [List.map_append, List.sum_append, List.map_singleton, List.sum_singleton]
        rw [not_and_or, not_not] at hfits
        rcases hfits with rfl | hfits
        · simp only [List.map_nil, List.sum_nil]
          omega
        · omega

theorem partsOfUnits_mergeable (hd : T.Decimals) (hnone : T.encode = none)
    (hatomic : ∀ unit ∈ units, Mergeable T (splitFallbackText T unit maxTokens)) (hspaced : Spaced (current ++ units)) :
    Mergeable T (partsOfUnits T maxTokens current units) := by
  have hone : ∀ text : Text, Mergeable T [text] := fun text => ⟨fun k => by simp, trivial⟩
  have hflush : ∀ current : List Text,
      Mergeable T (if current = [] then [] else [current.flatten]) ∧
        (if current = [] then ([] : List Text) else [current.flatten]).flatten = current.flatten := by
    intro current
    split
    · rename_i hnil
      rw [hnil]
      exact ⟨trivial, rfl⟩
    · exact ⟨hone _, by simp⟩
  induction units generalizing current with
  | nil =>
    rw [partsOfUnits]
    exact (hflush current).1
  | cons unit units ih =>
    obtain ⟨hunit, hunits⟩ := List.forall_mem_cons.mp hatomic
    unfold partsOfUnits
    split
    · rw [splitAtomicText_fallback hnone]
      have htext : (splitFallbackText T unit maxTokens).flatten = unit := by
        rw [← splitAtomicText_fallback hnone, splitAtomicText_text]
      have hrest : Spaced units := hspaced.right.tail
      have hfirst : Separated current.flatten unit := by
        have hsplit := hspaced.split
        rw [List.flatten_cons] at hsplit
        exact hsplit.shrink List.suffix_rfl (List.prefix_append _ _)
      have hsecond : Separated (current.flatten ++ unit) units.flatten := by
        have hspaced' : Spaced ((current ++ [unit]) ++ units) := by rwa [List.append_assoc, List.singleton_append]
        have hsplit := hspaced'.split
        rwa [List.flatten_append, List.flatten_singleton] at hsplit
      refine ((hflush current).1.append hd hunit ?_).append hd (ih hunits hrest) ?_
      · rw [(hflush current).2, htext]
        exact fun x y hx hy => hfirst.shrink hx hy
      · rw [List.flatten_append, (hflush current).2, htext, partsOfUnits_text, List.flatten_nil, List.nil_append]
        exact fun x y hx hy => hsecond.shrink hx hy
    · split
      · have hparts : Mergeable T (partsOfUnits T maxTokens [unit] units) := ih hunits hspaced.right
        have happend := (hone current.flatten).append hd hparts (by
          rw [List.flatten_singleton, partsOfUnits_text, List.flatten_singleton]
          have hsplit := hspaced.split
          rw [List.flatten_cons] at hsplit
          exact fun x y hx hy => hsplit.shrink hx hy)
        exact happend
      · exact ih hunits (by rwa [List.append_assoc, List.singleton_append])

theorem splitTextByTokens_le (hd : T.Decimals) (hnone : T.encode = none) (hmax : 1 ≤ maxTokens)
    (hrests : TextRestsWhole T maxTokens text) :
    (∀ part ∈ splitTextByTokens T text maxTokens, tokenSum T part ≤ maxTokens + 1) ∧
      (TextSlicesWhole T maxTokens text → ∀ part ∈ splitTextByTokens T text maxTokens, tokenSum T part ≤ maxTokens) ∧
      Mergeable T (splitTextByTokens T text maxTokens) := by
  have hone : max 1 maxTokens = maxTokens := max_eq_right hmax
  have hspaced : Spaced ([] ++ textUnits text) := textUnits_spaced text
  have hbound : ∀ limit, maxTokens ≤ limit → (∀ unit ∈ textUnits text, ∀ m ∈ (fallbackTokens T unit).1,
      maxTokens < m.weight → ∀ slice ∈ (cutToken (charactersPerPart maxTokens m.token) m.token.length m.token).1,
        tokenSum T slice ≤ limit) → ∀ part ∈ splitTextByTokens T text maxTokens, tokenSum T part ≤ limit := by
    intro limit hlimit hslices part hpart
    have hparts : ∀ part ∈ partsOfUnits T maxTokens [] (textUnits text), tokenSum T part ≤ limit :=
      partsOfUnits_le hd hnone hlimit (fun unit hunit =>
        splitFallbackText_le hd hmax hlimit (hrests unit hunit) (hslices unit hunit)) hspaced (Nat.zero_le _)
    have htext := partsOfUnits_text (T := T) maxTokens [] (textUnits text)
    rw [List.flatten_nil, List.nil_append, textUnits_text] at htext
    rw [splitTextByTokens, hone] at hpart
    split at hpart
    · rename_i hnil
      rw [hnil, List.flatten_nil] at htext
      rw [List.mem_singleton.mp hpart, ← htext]
      exact Nat.zero_le _
    · exact hparts part hpart
  have hslice : ∀ unit ∈ textUnits text, ∀ m ∈ (fallbackTokens T unit).1, maxTokens < m.weight →
      ∀ slice ∈ (cutToken (charactersPerPart maxTokens m.token) m.token.length m.token).1,
        tokenSum T slice ≤ maxTokens + 1 ∧ (SlicesWhole T maxTokens m.token → tokenSum T slice ≤ maxTokens) := by
    intro unit _ m hm hheavy slice hslice
    obtain ⟨-, p, joint, tail, hk, hjoined⟩ := token_kind hd hmax (fallbackTokens_inPlace unit) hm hheavy
    exact slice_weight hd hmax hk hjoined hslice
  refine ⟨hbound _ (Nat.le_succ _) fun unit hunit m hm hheavy slice hs => (hslice unit hunit m hm hheavy slice hs).1,
    fun hwhole => hbound _ le_rfl fun unit hunit m hm hheavy slice hs =>
      (hslice unit hunit m hm hheavy slice hs).2 (hwhole unit hunit m hm hheavy), ?_⟩
  rw [splitTextByTokens]
  rw [hone]
  split
  · exact ⟨fun k => by simp, trivial⟩
  · exact partsOfUnits_mergeable hd hnone (fun unit hunit => splitFallbackText_mergeable hd hmax (hrests unit hunit))
      hspaced

theorem unit_parts (hnone : T.encode = none) (hunit : unit ∈ units) (hlong : maxTokens < estimateTokens T unit)
    {part : Text} (hpart : part ∈ splitFallbackText T unit maxTokens) :
    part ∈ partsOfUnits T maxTokens current units := by
  induction units generalizing current with
  | nil => cases hunit
  | cons first units ih =>
    unfold partsOfUnits
    rcases List.mem_cons.mp hunit with rfl | hunit
    · rw [if_pos hlong, splitAtomicText_fallback hnone]
      exact List.mem_append_left _ (List.mem_append_right _ hpart)
    · split
      · exact List.mem_append_right _ (ih hunit)
      · split
        · exact List.mem_cons_of_mem _ (ih hunit)
        · exact ih hunit

/-- Parts that keep the budget were cut from words and numbers into words and numbers. -/
theorem slicesWhole_of_le (hd : T.Decimals) (hnone : T.encode = none) (hmax : 1 ≤ maxTokens)
    (h : ∀ part ∈ splitTextByTokens T text maxTokens, tokenSum T part ≤ maxTokens) :
    TextSlicesWhole T maxTokens text := by
  intro unit hunit m hm hheavy hascii k hcut
  obtain ⟨-, p, joint, tail, hk, hjoined⟩ := token_kind hd hmax (fallbackTokens_inPlace unit) hm hheavy
  have hsize : charactersPerPart maxTokens m.token = maxTokens * 4 := by
    rw [charactersPerPart, if_pos hascii]
  have hslice := (mem_cutToken (charactersPerPart_pos hmax m.token) le_rfl).mpr ⟨k, by rwa [hsize], rfl⟩
  obtain ⟨hpiece, hlength⟩ := slice_piece hmax hjoined hslice
  have hmem : (m.token.drop (k * charactersPerPart maxTokens m.token)).take (charactersPerPart maxTokens m.token) ∈
      splitTextByTokens T text maxTokens := by
    have hin : (m.token.drop (k * charactersPerPart maxTokens m.token)).take (charactersPerPart maxTokens m.token) ∈
        fallbackParts T maxTokens [] 0 (fallbackTokens T unit).1 (fallbackTokens T unit).2 := slice_mem hm hheavy hslice
    have hatomic : (m.token.drop (k * charactersPerPart maxTokens m.token)).take (charactersPerPart maxTokens m.token) ∈
        splitFallbackText T unit maxTokens := by
      rw [splitFallbackText]
      rwa [if_neg (List.ne_nil_of_mem hin)]
    have hparts : (m.token.drop (k * charactersPerPart maxTokens m.token)).take (charactersPerPart maxTokens m.token) ∈
        partsOfUnits T maxTokens [] (textUnits text) :=
      unit_parts hnone hunit (hheavy.trans_le (weight_le_estimate hnone hm)) hatomic
    rw [splitTextByTokens, max_eq_right hmax, if_neg (List.ne_nil_of_mem hparts)]
    exact hparts
  have hle := h _ hmem
  rw [hsize] at hle hpiece hlength
  rw [← hpiece.whole_iff hd hk hmax hlength, hlength] at hle
  exact hle

end

end YiQiao
