import Mathlib.Data.Nat.Init
import YiQiao.Lib.Packing
import YiQiao.Value

/-!
# Cutting text

How the chat import counts the tokens of a text and cuts a long one: at blank lines and after sentences
where it can, and within a unit that is too long by itself.
-/

namespace YiQiao

open Lib

abbrev Text := List Char

/-- What the cutting of text reads from its environment. -/
structure Tokenizer where
  /-- The byte length of every token of a text, where `tiktoken` is there and does not raise. -/
  encode : Option (Text → Option (List Nat))
  /-- The decimal digits, `\d`. -/
  isDecimal : Char → Bool

/-! ## Tokens without an encoder -/

/-- `[\u3400-\u4dbf\u4e00-\u9fff\uf900-\ufaff]`. -/
def isIdeograph (c : Char) : Bool :=
  let n := c.toNat
  (0x3400 ≤ n && n ≤ 0x4dbf) || (0x4e00 ≤ n && n ≤ 0x9fff) || (0xf900 ≤ n && n ≤ 0xfaff)

/-- The length of `p+` and, behind the joint, of `p+` once more. -/
def joinedRun (p : Char → Bool) (joint : Char) (text : Text) : Nat :=
  let first := text.takeWhile p
  match text.drop first.length with
  | j :: c :: rest =>
      if j = joint ∧ p c then first.length + 2 + (rest.takeWhile p).length else first.length
  | _ => first.length

/-- The length of the token a text begins with under `_FALLBACK_TOKEN_RE`, and whether it is a word or a
number; no token begins with white space. -/
def fallbackToken (T : Tokenizer) : Text → Option (Nat × Bool)
  | [] => none
  | c :: rest =>
      if isIdeograph c then some (1, false)
      else if c.isAlpha then some (joinedRun Char.isAlpha '\'' (c :: rest), true)
      else if T.isDecimal c then some (joinedRun T.isDecimal '.' (c :: rest), true)
      else if isSpace c then none
      else some (1, false)

/-- `max(1, ceil(length / 4))` of a word or a number. -/
def tokenWeight (length : Nat) (word : Bool) : Nat := if word then max 1 ((length + 3) / 4) else 1

/-- `_fallback_token_weight`. -/
def fallbackTokenWeight (T : Tokenizer) (text : Text) : Nat :=
  tokenWeight text.length (match fallbackToken T text with
    | some (length, word) => word && length = text.length
    | none => false)

/-- A token, the white space before it, and whether it is a word or a number. -/
structure FallbackMatch where
  gap : Text
  token : Text
  word : Bool

/-- `_FALLBACK_TOKEN_RE.finditer`, and the white space behind the last token. The fuel is the length. -/
def fallbackMatches (T : Tokenizer) : Nat → Text → Text → List FallbackMatch × Text
  | 0, gap, text => ([], gap ++ text)
  | fuel + 1, gap, text =>
      match text with
      | [] => ([], gap)
      | c :: rest =>
          match fallbackToken T (c :: rest) with
          | none => fallbackMatches T fuel (gap ++ [c]) rest
          | some (length, word) =>
              let found := fallbackMatches T fuel [] ((c :: rest).drop length)
              (⟨gap, (c :: rest).take length, word⟩ :: found.1, found.2)

def fallbackTokens (T : Tokenizer) (text : Text) : List FallbackMatch × Text :=
  fallbackMatches T text.length [] text

/-- `estimate_tokens`. -/
def estimateTokens (T : Tokenizer) (text : Text) : Nat :=
  match T.encode.bind fun encode => encode text with
  | some lengths => max 1 lengths.length
  | none => max 1 (((fallbackTokens T text).1.map fun m => tokenWeight m.token.length m.word).sum)

/-! ## Cutting a unit -/

/-- How many characters the first bytes of a text hold: `_safe_utf8_boundary`, counted in characters. -/
def safeBoundary : Text → Nat → Nat
  | [], _ => 0
  | c :: rest, bytes => if c.utf8Size ≤ bytes then safeBoundary rest (bytes - c.utf8Size) + 1 else 0

/-- The loop over the tokens of a text: the bytes read, and the boundary before. -/
def encodedParts (text : Text) (maxTokens count : Nat) : Nat → Nat → Nat → List Nat → List Text
  | _, _, previous, [] => if previous < text.length then [text.drop previous] else []
  | index, bytes, previous, length :: lengths =>
      let boundary := safeBoundary text (bytes + length)
      if (index + 1) % maxTokens ≠ 0 ∨ index + 1 = count ∨ boundary ≤ previous then
        encodedParts text maxTokens count (index + 1) (bytes + length) previous lengths
      else (text.take boundary).drop previous ::
        encodedParts text maxTokens count (index + 1) (bytes + length) boundary lengths

/-- `_split_encoded_text`. -/
def splitEncodedText (text : Text) (maxTokens : Nat) (lengths : List Nat) : List Text :=
  if lengths.length ≤ maxTokens then [text]
  else encodedParts text maxTokens lengths.length 0 0 0 lengths

/-- The parts of a token longer than a part may be, and what is left of it. -/
def cutToken (size : Nat) : Nat → Text → List Text × Text
  | 0, token => ([], token)
  | fuel + 1, token =>
      if size < token.length then
        let cut := cutToken size fuel (token.drop size)
        (token.take size :: cut.1, cut.2)
      else ([], token)

/-- How many characters of a long token make a part. -/
def charactersPerPart (maxTokens : Nat) (token : Text) : Nat :=
  if token.head?.any Char.isAlphanum then maxTokens * 4 else maxTokens

/-- The loop over the tokens of a text: the part that has begun, and the tokens in it. -/
def fallbackParts (T : Tokenizer) (maxTokens : Nat) : Text → Nat → List FallbackMatch → Text → List Text
  | pending, _, [], trailing => if pending ++ trailing = [] then [] else [pending ++ trailing]
  | pending, used, m :: rest, trailing =>
      let weight := tokenWeight m.token.length m.word
      let before := pending ++ m.gap
      let full := used ≠ 0 ∧ maxTokens < used + weight
      let closed := if full then [before] else []
      let before := if full then [] else before
      let used := if full then 0 else used
      if maxTokens < weight then
        let cut := cutToken (charactersPerPart maxTokens m.token) m.token.length m.token
        closed ++ (if before = [] then [] else [before]) ++ cut.1 ++
          fallbackParts T maxTokens cut.2 (fallbackTokenWeight T cut.2) rest trailing
      else closed ++ fallbackParts T maxTokens (before ++ m.token) (used + weight) rest trailing

/-- `_split_fallback_text`. -/
def splitFallbackText (T : Tokenizer) (text : Text) (maxTokens : Nat) : List Text :=
  let found := fallbackTokens T text
  let parts := fallbackParts T maxTokens [] 0 found.1 found.2
  if parts = [] then [text] else parts

/-- `_split_atomic_text`. -/
def splitAtomicText (T : Tokenizer) (text : Text) (maxTokens : Nat) : List Text :=
  match T.encode.bind fun encode => encode text with
  | some lengths => splitEncodedText text maxTokens lengths
  | none => splitFallbackText T text maxTokens

/-! ## Cutting a text -/

/-- `[.!?\u3002\uff01\uff1f]`. -/
def endsSentence (c : Char) : Bool :=
  c = '.' || c = '!' || c = '?' || c.toNat = 0x3002 || c.toNat = 0xff01 || c.toNat = 0xff1f

/-- The length of the separator a text begins with: white space between two line breaks, or all the white
space behind the end of a sentence. -/
def separatorLength (previous : Option Char) (text : Text) : Nat :=
  let space := text.takeWhile isSpace
  let lines := space.reverse.dropWhile (· ≠ '\n')
  if text.head? = some '\n' ∧ 2 ≤ lines.length then lines.length
  else if previous.any endsSentence then space.length
  else 0

/-- The pieces of `re.split`, the empty ones too; the fuel is the length. -/
def splitPieces : Nat → Text → Option Char → Text → List Text
  | 0, piece, _, text => [piece ++ text]
  | fuel + 1, piece, previous, text =>
      match text with
      | [] => [piece]
      | c :: rest =>
          let n := separatorLength previous (c :: rest)
          if n = 0 then splitPieces fuel (piece ++ [c]) (some c) rest
          else piece :: (c :: rest).take n ::
            splitPieces fuel [] ((c :: rest).take n).getLast? ((c :: rest).drop n)

/-- The units of a text: what stands between separators, and the separators. -/
def textUnits (text : Text) : List Text := (splitPieces text.length [] none text).filter (· ≠ [])

/-- The loop over the units: the part that has begun. -/
def partsOfUnits (T : Tokenizer) (maxTokens : Nat) : List Text → List Text → List Text
  | current, [] => if current = [] then [] else [current.flatten]
  | current, unit :: units =>
      if maxTokens < estimateTokens T unit then
        (if current = [] then [] else [current.flatten]) ++ splitAtomicText T unit maxTokens ++
          partsOfUnits T maxTokens [] units
      else if current ≠ [] ∧ maxTokens < (current.map (estimateTokens T)).sum + estimateTokens T unit then
        current.flatten :: partsOfUnits T maxTokens [unit] units
      else partsOfUnits T maxTokens (current ++ [unit]) units

/-- `_split_text_by_tokens`. -/
def splitTextByTokens (T : Tokenizer) (text : Text) (maxTokens : Nat) : List Text :=
  let parts := partsOfUnits T (max 1 maxTokens) [] (textUnits text)
  if parts = [] then [text] else parts

/-! ## Every character is kept -/

section

variable {T : Tokenizer}

def FallbackMatch.text (m : FallbackMatch) : Text := m.gap ++ m.token

theorem fallbackMatches_text (fuel : Nat) (gap text : Text) :
    ((fallbackMatches T fuel gap text).1.map FallbackMatch.text).flatten ++ (fallbackMatches T fuel gap text).2 =
      gap ++ text := by
  induction fuel generalizing gap text with
  | zero => rfl
  | succ fuel ih =>
      cases text with
      | nil => simp [fallbackMatches]
      | cons c rest =>
          unfold fallbackMatches
          dsimp only
          split
          · rw [ih, List.append_assoc, List.singleton_append]
          · rw [List.map_cons, List.flatten_cons, FallbackMatch.text, List.append_assoc, ih, List.nil_append,
              List.append_assoc, List.take_append_drop]

theorem cutToken_text (size fuel : Nat) (token : Text) :
    (cutToken size fuel token).1.flatten ++ (cutToken size fuel token).2 = token := by
  induction fuel generalizing token with
  | zero => rfl
  | succ fuel ih =>
      unfold cutToken
      split
      · dsimp only
        rw [List.flatten_cons, List.append_assoc, ih, List.take_append_drop]
      · rfl

theorem flatten_singleton_unless (text : Text) :
    (if text = [] then ([] : List Text) else [text]).flatten = text := by
  split
  · rename_i h
    rw [h]
    rfl
  · simp

theorem fallbackParts_text (maxTokens : Nat) (pending : Text) (used : Nat) (found : List FallbackMatch)
    (trailing : Text) : (fallbackParts T maxTokens pending used found trailing).flatten =
      pending ++ (found.map FallbackMatch.text).flatten ++ trailing := by
  induction found generalizing pending used with
  | nil =>
      rw [fallbackParts, flatten_singleton_unless]
      simp
  | cons m rest ih =>
      have hbefore : ∀ full : Prop, ∀ _ : Decidable full,
          (if full then [pending ++ m.gap] else []).flatten ++ (if full then [] else pending ++ m.gap) =
            pending ++ m.gap := by
        intro full _
        split <;> simp
      unfold fallbackParts
      dsimp only
      split
      · rw [List.flatten_append, List.flatten_append, List.flatten_append, flatten_singleton_unless, ih, hbefore,
          List.map_cons, List.flatten_cons, FallbackMatch.text]
        simp only [List.append_assoc]
        rw [← List.append_assoc (cutToken _ _ _).1.flatten, cutToken_text]
      · rw [List.flatten_append, ih, ← List.append_assoc, ← List.append_assoc, ← List.append_assoc, hbefore,
          List.map_cons, List.flatten_cons, FallbackMatch.text]
        simp only [List.append_assoc]

theorem encodedParts_text (text : Text) (maxTokens count index bytes previous : Nat) (lengths : List Nat) :
    (encodedParts text maxTokens count index bytes previous lengths).flatten = text.drop previous := by
  induction lengths generalizing index bytes previous with
  | nil =>
      unfold encodedParts
      split
      · simp
      · rename_i h
        rw [List.drop_eq_nil_of_le (not_lt.mp h)]
        rfl
  | cons length lengths ih =>
      unfold encodedParts
      dsimp only
      split
      · exact ih ..
      · rename_i h
        have hlater : previous ≤ safeBoundary text (bytes + length) := by omega
        obtain ⟨extra, hextra⟩ := Nat.exists_eq_add_of_le hlater
        rw [List.flatten_cons, ih, hextra, ← List.drop_drop, List.drop_take, Nat.add_sub_cancel_left,
          List.take_append_drop]

theorem splitAtomicText_text (text : Text) (maxTokens : Nat) :
    (splitAtomicText T text maxTokens).flatten = text := by
  unfold splitAtomicText
  split
  · unfold splitEncodedText
    split
    · simp
    · rw [encodedParts_text, List.drop_zero]
  · unfold splitFallbackText
    dsimp only
    split
    · simp
    · rw [fallbackParts_text, List.nil_append, fallbackTokens, fallbackMatches_text, List.nil_append]

theorem splitPieces_text (fuel : Nat) (piece : Text) (previous : Option Char) (text : Text) :
    (splitPieces fuel piece previous text).flatten = piece ++ text := by
  induction fuel generalizing piece previous text with
  | zero => simp [splitPieces]
  | succ fuel ih =>
      cases text with
      | nil => simp [splitPieces]
      | cons c rest =>
          unfold splitPieces
          dsimp only
          split
          · rw [ih, List.append_assoc, List.singleton_append]
          · rw [List.flatten_cons, List.flatten_cons, ih, List.nil_append, List.take_append_drop]

theorem textUnits_text (text : Text) : (textUnits text).flatten = text := by
  rw [textUnits, List.flatten_filter_ne_nil, splitPieces_text, List.nil_append]

theorem partsOfUnits_text (maxTokens : Nat) (current units : List Text) :
    (partsOfUnits T maxTokens current units).flatten = current.flatten ++ units.flatten := by
  have hflush : ∀ current : List Text,
      (if current = [] then ([] : List Text) else [current.flatten]).flatten = current.flatten := by
    intro current
    split
    · rename_i h
      rw [h]
    · simp
  induction units generalizing current with
  | nil => rw [partsOfUnits, hflush, List.flatten_nil, List.append_nil]
  | cons unit units ih =>
      unfold partsOfUnits
      split
      · rw [List.flatten_append, List.flatten_append, hflush, splitAtomicText_text, ih, List.flatten_nil,
          List.nil_append, List.flatten_cons, List.append_assoc]
      · split
        · rw [List.flatten_cons, ih, List.flatten_singleton, List.flatten_cons]
        · rw [ih, List.flatten_append, List.flatten_singleton, List.append_assoc, List.flatten_cons]

/-- The parts of a text join back to it. -/
theorem splitTextByTokens_text (text : Text) (maxTokens : Nat) :
    (splitTextByTokens T text maxTokens).flatten = text := by
  unfold splitTextByTokens
  dsimp only
  split
  · simp
  · rw [partsOfUnits_text, List.flatten_nil, List.nil_append, textUnits_text]

/-! ## No part is empty -/

theorem safeBoundary_le (text : Text) (bytes : Nat) : safeBoundary text bytes ≤ text.length := by
  induction text generalizing bytes with
  | nil => exact le_rfl
  | cons c rest ih =>
      rw [safeBoundary]
      split
      · exact Nat.succ_le_succ (ih _)
      · exact Nat.zero_le _

theorem encodedParts_ne (text : Text) (maxTokens count index bytes previous : Nat) (lengths : List Nat) :
    ∀ part ∈ encodedParts text maxTokens count index bytes previous lengths, part ≠ [] := by
  induction lengths generalizing index bytes previous with
  | nil =>
      intro part hpart
      rw [encodedParts] at hpart
      split at hpart
      · rename_i h
        rw [List.mem_singleton] at hpart
        rw [hpart, ne_eq, List.drop_eq_nil_iff]
        omega
      · cases hpart
  | cons length lengths ih =>
      intro part hpart
      unfold encodedParts at hpart
      dsimp only at hpart
      split at hpart
      · exact ih _ _ _ part hpart
      · rename_i h
        rcases List.mem_cons.mp hpart with rfl | hpart
        · have hle := safeBoundary_le text (bytes + length)
          rw [ne_eq, List.drop_eq_nil_iff, List.length_take]
          omega
        · exact ih _ _ _ part hpart

theorem splitEncodedText_ne {text : Text} (htext : text ≠ []) (maxTokens : Nat) (lengths : List Nat) :
    ∀ part ∈ splitEncodedText text maxTokens lengths, part ≠ [] := by
  intro part hpart
  rw [splitEncodedText] at hpart
  split at hpart
  · rwa [List.mem_singleton.mp hpart]
  · exact encodedParts_ne _ _ _ _ _ _ _ part hpart

theorem cutToken_ne {size : Nat} (hsize : 0 < size) (fuel : Nat) (token : Text) :
    (∀ part ∈ (cutToken size fuel token).1, part ≠ []) ∧ (token ≠ [] → (cutToken size fuel token).2 ≠ []) := by
  induction fuel generalizing token with
  | zero => exact ⟨fun part hpart => (by cases hpart), id⟩
  | succ fuel ih =>
      unfold cutToken
      split
      · rename_i hlong
        obtain ⟨hparts, hrest⟩ := ih (token.drop size)
        refine ⟨fun part hpart => ?_, fun _ => hrest ?_⟩
        · rcases List.mem_cons.mp hpart with rfl | hpart
          · rw [ne_eq, List.take_eq_nil_iff]
            rintro (hzero | rfl)
            · omega
            · simp at hlong
          · exact hparts part hpart
        · rw [ne_eq, List.drop_eq_nil_iff]
          omega
      · exact ⟨fun part hpart => (by cases hpart), id⟩

theorem joinedRun_pos {p : Char → Bool} {joint c : Char} (hc : p c = true) (rest : Text) :
    0 < joinedRun p joint (c :: rest) := by
  have hfirst : 0 < ((c :: rest).takeWhile p).length := by
    rw [List.takeWhile_cons, if_pos hc]
    exact Nat.succ_pos _
  unfold joinedRun
  dsimp only
  split
  · split
    · omega
    · exact hfirst
  · exact hfirst

theorem fallbackToken_pos {text : Text} {length : Nat} {word : Bool}
    (h : fallbackToken T text = some (length, word)) : 0 < length := by
  cases text with
  | nil => cases h
  | cons c rest =>
      simp only [fallbackToken] at h
      split at h
      · cases h
        exact Nat.one_pos
      · split at h
        · rename_i hc
          cases h
          exact joinedRun_pos hc rest
        · split at h
          · rename_i hc
            cases h
            exact joinedRun_pos hc rest
          · split at h
            · cases h
            · cases h
              exact Nat.one_pos

theorem fallbackMatches_ne (fuel : Nat) (gap text : Text) :
    ∀ m ∈ (fallbackMatches T fuel gap text).1, m.token ≠ [] := by
  induction fuel generalizing gap text with
  | zero =>
      intro m hm
      cases hm
  | succ fuel ih =>
      cases text with
      | nil =>
          intro m hm
          cases hm
      | cons c rest =>
          unfold fallbackMatches
          dsimp only
          split
          · exact ih _ _
          · rename_i length word htoken
            intro m hm
            rcases List.mem_cons.mp hm with rfl | hm
            · have hpos := fallbackToken_pos htoken
              rw [ne_eq, List.take_eq_nil_iff]
              rintro (hzero | hnil)
              · omega
              · cases hnil
            · exact ih _ _ m hm

theorem fallbackParts_ne {maxTokens : Nat} (hmax : 0 < maxTokens) (pending : Text) (used : Nat)
    (found : List FallbackMatch) (trailing : Text) (htokens : ∀ m ∈ found, m.token ≠ [])
    (hpending : used ≠ 0 → pending ≠ []) :
    ∀ part ∈ fallbackParts T maxTokens pending used found trailing, part ≠ [] := by
  induction found generalizing pending used with
  | nil =>
      intro part hpart
      rw [fallbackParts] at hpart
      split at hpart
      · cases hpart
      · rename_i h
        rwa [List.mem_singleton.mp hpart]
  | cons m rest ih =>
      have htoken := htokens m List.mem_cons_self
      have hrest := fun later hlater => htokens later (List.mem_cons_of_mem _ hlater)
      intro part hpart
      unfold fallbackParts at hpart
      dsimp only at hpart
      have hclosed : part ∈ (if used ≠ 0 ∧ maxTokens < used + tokenWeight m.token.length m.word then
          [pending ++ m.gap] else []) → part ≠ [] := by
        intro hmem
        split at hmem
        · rename_i hfull
          rw [List.mem_singleton.mp hmem]
          exact List.append_ne_nil_of_left_ne_nil (hpending hfull.1) _
        · cases hmem
      have hopen : ∀ before : Text, part ∈ (if before = [] then [] else [before]) → part ≠ [] := by
        intro before hmem
        split at hmem
        · cases hmem
        · rename_i hne
          rwa [List.mem_singleton.mp hmem]
      split at hpart
      · have hsize : 0 < charactersPerPart maxTokens m.token := by
          unfold charactersPerPart
          split <;> omega
        obtain ⟨hcut, hleft⟩ := cutToken_ne hsize m.token.length m.token
        rcases List.mem_append.mp hpart with hpart | hpart
        · rcases List.mem_append.mp hpart with hpart | hpart
          · rcases List.mem_append.mp hpart with hpart | hpart
            · exact hclosed hpart
            · exact hopen _ hpart
          · exact hcut part hpart
        · exact ih _ _ hrest (fun _ => hleft htoken) part hpart
      · rcases List.mem_append.mp hpart with hpart | hpart
        · exact hclosed hpart
        · exact ih _ _ hrest (fun _ => List.append_ne_nil_of_right_ne_nil _ htoken) part hpart

theorem splitAtomicText_ne {text : Text} (htext : text ≠ []) {maxTokens : Nat} (hmax : 0 < maxTokens) :
    ∀ part ∈ splitAtomicText T text maxTokens, part ≠ [] := by
  intro part hpart
  unfold splitAtomicText at hpart
  split at hpart
  · exact splitEncodedText_ne htext _ _ part hpart
  · unfold splitFallbackText at hpart
    dsimp only at hpart
    split at hpart
    · rwa [List.mem_singleton.mp hpart]
    · exact fallbackParts_ne hmax _ _ _ _ (fallbackMatches_ne _ _ _) (fun h => absurd rfl h) part hpart

theorem partsOfUnits_ne {maxTokens : Nat} (hmax : 0 < maxTokens) {current units : List Text}
    (hcurrent : ∀ unit ∈ current, unit ≠ []) (hunits : ∀ unit ∈ units, unit ≠ []) :
    ∀ part ∈ partsOfUnits T maxTokens current units, part ≠ [] := by
  have hflush : ∀ current : List Text, (∀ unit ∈ current, unit ≠ []) → current ≠ [] → current.flatten ≠ [] := by
    intro current hne hsome hnil
    obtain ⟨unit, hunit⟩ := List.exists_mem_of_ne_nil current hsome
    exact hne unit hunit (List.flatten_eq_nil_iff.mp hnil unit hunit)
  induction units generalizing current with
  | nil =>
      intro part hpart
      rw [partsOfUnits] at hpart
      split at hpart
      · cases hpart
      · rename_i hsome
        rw [List.mem_singleton.mp hpart]
        exact hflush current hcurrent hsome
  | cons unit units ih =>
      have hunit := hunits unit List.mem_cons_self
      have hrest := fun later hlater => hunits later (List.mem_cons_of_mem _ hlater)
      intro part hpart
      unfold partsOfUnits at hpart
      split at hpart
      · rcases List.mem_append.mp hpart with hpart | hpart
        · rcases List.mem_append.mp hpart with hpart | hpart
          · split at hpart
            · cases hpart
            · rename_i hsome
              rw [List.mem_singleton.mp hpart]
              exact hflush current hcurrent hsome
          · exact splitAtomicText_ne hunit hmax part hpart
        · exact ih (fun _ h => by cases h) hrest part hpart
      · split at hpart
        · rename_i hfull
          rcases List.mem_cons.mp hpart with rfl | hpart
          · exact hflush current hcurrent hfull.1
          · refine ih (fun other hother => ?_) hrest part hpart
            rwa [List.mem_singleton.mp hother]
        · refine ih (fun other hother => ?_) hrest part hpart
          rcases List.mem_append.mp hother with hother | hother
          · exact hcurrent other hother
          · rwa [List.mem_singleton.mp hother]

/-- Only a text that is empty itself has an empty part, and then it is the only one. -/
theorem splitTextByTokens_ne {text : Text} (maxTokens : Nat) (htext : text ≠ []) :
    ∀ part ∈ splitTextByTokens T text maxTokens, part ≠ [] := by
  intro part hpart
  unfold splitTextByTokens at hpart
  dsimp only at hpart
  split at hpart
  · rwa [List.mem_singleton.mp hpart]
  · refine partsOfUnits_ne (by omega) (fun _ h => by cases h) (fun unit hunit => ?_) part hpart
    simpa using (List.mem_filter.mp hunit).2

theorem splitTextByTokens_nil (maxTokens : Nat) : splitTextByTokens T [] maxTokens = [[]] := rfl

end

end YiQiao
