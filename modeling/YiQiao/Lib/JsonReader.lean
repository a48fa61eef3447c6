import Mathlib.Data.Bool.AllAny
import YiQiao.Lib.Json
import YiQiao.Lib.Logs

/-!
# Reading JSON texts

A text is cut into tokens, and the tokens are read by a machine with a stack of the values it is inside of. What
`Json.render` writes is read back, and a text that ends inside a string is not read at all.
-/

namespace YiQiao.Lib

/-! ## Tokens -/

inductive JsonToken where
  | punct (c : Char)
  /-- What stands between two quotes. -/
  | text (raw : List Char)
  | word (w : List Char)

def isBlank (c : Char) : Bool := c ∈ [' ', '\t', '\n', '\r']

def isPunct (c : Char) : Bool := c ∈ ['[', ']', '{', '}', ',', ':']

inductive LexMode where
  | word (w : List Char)
  | inside (raw : List Char)
  | escape (raw : List Char)

/-- The tokens so far and what has begun. -/
structure Lexer where
  tokens : List JsonToken
  mode : LexMode

def wordTokens (w : List Char) : List JsonToken := if w = [] then [] else [.word w]

def Lexer.step (L : Lexer) (c : Char) : Lexer :=
  match L.mode with
  | .word w =>
      if c = '"' then ⟨L.tokens ++ wordTokens w, .inside []⟩
      else if isPunct c then ⟨L.tokens ++ wordTokens w ++ [.punct c], .word []⟩
      else if isBlank c then ⟨L.tokens ++ wordTokens w, .word []⟩
      else ⟨L.tokens, .word (w ++ [c])⟩
  | .inside raw =>
      if c = '"' then ⟨L.tokens ++ [.text raw], .word []⟩
      else if c = '\\' then ⟨L.tokens, .escape raw⟩
      else ⟨L.tokens, .inside (raw ++ [c])⟩
  | .escape raw => ⟨L.tokens, .inside (raw ++ ['\\', c])⟩

/-- The tokens of a text, unless it ends inside a string. -/
def lex (s : List Char) : Option (List JsonToken) :=
  let L := replay Lexer.step ⟨[], .word []⟩ s
  match L.mode with
  | .word w => some (L.tokens ++ wordTokens w)
  | .inside _ => none
  | .escape _ => none

/-! ## Strings -/

/-- The letters behind a backslash that are read. -/
def readEscapes : List (Char × Char) := ('/', '/') :: shortEscapes

def hexNumber (digits : List Char) : Option Nat :=
  digits.foldlM (fun n c => (hexDigits.idxOf? c.toLower).map fun d => 16 * n + d) 0

/-- The characters of a string by their numbers, surrogates one by one. -/
def codeUnits : List Char → Option (List Nat)
  | [] => some []
  | '\\' :: 'u' :: a :: b :: c :: d :: rest =>
      (hexNumber [a, b, c, d]).bind fun n => (codeUnits rest).map (n :: ·)
  | '\\' :: e :: rest => (readEscapes.lookup e).bind fun c => (codeUnits rest).map (c.toNat :: ·)
  | c :: rest => if c = '\\' ∨ c.toNat < 32 then none else (codeUnits rest).map (c.toNat :: ·)

/-- Two surrogates are one character. -/
def joinUnits : List Nat → Option (List Char)
  | [] => some []
  | [n] => if n.isValidChar then some [Char.ofNat n] else none
  | n :: m :: rest =>
      if 0xd800 ≤ n ∧ n < 0xdc00 ∧ 0xdc00 ≤ m ∧ m < 0xe000 then
        (joinUnits rest).map (Char.ofNat (0x10000 + (n - 0xd800) * 0x400 + (m - 0xdc00)) :: ·)
      else if n.isValidChar then (joinUnits (m :: rest)).map (Char.ofNat n :: ·)
      else none

def decodeString (raw : List Char) : Option (List Char) := (codeUnits raw).bind joinUnits

/-! ## Words -/

def isDigits (s : List Char) : Bool := !s.isEmpty && s.all Char.isDigit

def isExponent : List Char → Bool
  | [] => true
  | e :: '+' :: s => (e = 'e' || e = 'E') && isDigits s
  | e :: '-' :: s => (e = 'e' || e = 'E') && isDigits s
  | e :: s => (e = 'e' || e = 'E') && isDigits s

def isFraction : List Char → Bool
  | '.' :: s => isDigits (s.takeWhile Char.isDigit) && isExponent (s.dropWhile Char.isDigit)
  | s => isExponent s

def isUnsigned (s : List Char) : Bool :=
  let digits := s.takeWhile Char.isDigit
  (digits = ['0'] || isDigits digits && digits.head? ≠ some '0') && isFraction (s.dropWhile Char.isDigit)

def isNumberText (w : List Char) : Bool :=
  w = ['N', 'a', 'N'] || match w with
    | '-' :: s => s = "Infinity".toList || isUnsigned s
    | s => s = "Infinity".toList || isUnsigned s

def readWord (w : List Char) : Option Json :=
  if w = ['n', 'u', 'l', 'l'] then some .null
  else if w = ['t', 'r', 'u', 'e'] then some (.bool true)
  else if w = ['f', 'a', 'l', 's', 'e'] then some (.bool false)
  else if isNumberText w then some (.number w)
  else none

/-! ## Values -/

/-- A list or an object that is not yet complete. -/
inductive JsonFrame where
  | items (done : List Json)
  | field (done : List (String × Json)) (key : String)

/-- What is to come next. -/
inductive JsonParser where
  | value (stack : List JsonFrame)
  | firstItem (stack : List JsonFrame)
  | firstKey (stack : List JsonFrame)
  | nextKey (done : List (String × Json)) (stack : List JsonFrame)
  | colon (done : List (String × Json)) (key : String) (stack : List JsonFrame)
  | after (v : Json) (stack : List JsonFrame)

namespace JsonParser

def readValue (stack : List JsonFrame) : JsonToken → Option JsonParser
  | .word w => (readWord w).map fun v => .after v stack
  | .text raw => (decodeString raw).map fun s => .after (.str s) stack
  | .punct '[' => some (.firstItem stack)
  | .punct '{' => some (.firstKey stack)
  | .punct _ => none

def readKey (done : List (String × Json)) (stack : List JsonFrame) : JsonToken → Option JsonParser
  | .text raw => (decodeString raw).map fun s => .colon done (String.ofList s) stack
  | .punct _ => none
  | .word _ => none

/-- A key that comes again has the last of its values. -/
def step : JsonParser → JsonToken → Option JsonParser
  | .value stack, token => readValue stack token
  | .firstItem stack, .punct ']' => some (.after (.arr []) stack)
  | .firstItem stack, token => readValue (.items [] :: stack) token
  | .firstKey stack, .punct '}' => some (.after (.obj []) stack)
  | .firstKey stack, token => readKey [] stack token
  | .nextKey done stack, token => readKey done stack token
  | .colon done key stack, .punct ':' => some (.value (.field done key :: stack))
  | .after v (.items done :: stack), .punct ',' => some (.value (.items (done ++ [v]) :: stack))
  | .after v (.items done :: stack), .punct ']' => some (.after (.arr (done ++ [v])) stack)
  | .after v (.field done key :: stack), .punct ',' => some (.nextKey (Dict.set key v done) stack)
  | .after v (.field done key :: stack), .punct '}' => some (.after (.obj (Dict.set key v done)) stack)
  | _, _ => none

end JsonParser

/-- `json.loads`; the error is a `JSONDecodeError`. -/
def loads (s : List Char) : Option Json :=
  (lex s).bind fun tokens => (tokens.foldlM JsonParser.step (.value [])).bind fun
    | .after v [] => some v
    | _ => none

mutual
/-- Every number is one, and no object has a key twice. -/
def Json.Sound : Json → Prop
  | .number token => isNumberText token = true
  | .arr items => Json.SoundItems items
  | .obj fields => Dict.Unique fields ∧ Json.SoundFields fields
  | _ => True

def Json.SoundItems : List Json → Prop
  | [] => True
  | v :: vs => v.Sound ∧ Json.SoundItems vs

def Json.SoundFields : List (String × Json) → Prop
  | [] => True
  | (_, v) :: fields => v.Sound ∧ Json.SoundFields fields
end

mutual
/-- The tokens of the text of a value. -/
def Json.tokens : Json → List JsonToken
  | .null => [.word ['n', 'u', 'l', 'l']]
  | .bool true => [.word ['t', 'r', 'u', 'e']]
  | .bool false => [.word ['f', 'a', 'l', 's', 'e']]
  | .number token => [.word token]
  | .str s => [.text (s.flatMap escapeChar)]
  | .arr items => .punct '[' :: Json.itemTokens true items
  | .obj fields => .punct '{' :: Json.fieldTokens true fields

def Json.itemTokens (first : Bool) : List Json → List JsonToken
  | [] => [.punct ']']
  | v :: vs => (if first then [] else [.punct ',']) ++ (v.tokens ++ Json.itemTokens false vs)

def Json.fieldTokens (first : Bool) : List (String × Json) → List JsonToken
  | [] => [.punct '}']
  | (key, v) :: fields => (if first then [] else [.punct ',']) ++
      (.text (key.toList.flatMap escapeChar) :: .punct ':' :: (v.tokens ++ Json.fieldTokens false fields))
end

mutual
/-- The characters of the strings and of the keys. -/
def Json.chars : Json → List Char
  | .str s => s
  | .arr items => Json.itemChars items
  | .obj fields => Json.fieldChars fields
  | _ => []

def Json.itemChars : List Json → List Char
  | [] => []
  | v :: vs => v.chars ++ Json.itemChars vs

def Json.fieldChars : List (String × Json) → List Char
  | [] => []
  | (key, v) :: fields => key.toList ++ (v.chars ++ Json.fieldChars fields)
end

/-! ## Strings are read back -/

theorem hexDigit_mem (n : Nat) : hexDigit n ∈ hexDigits := by
  rw [hexDigit, List.getD_eq_getElem?_getD]
  cases h : hexDigits[n]? with
  | some c => exact List.mem_of_getElem? h
  | none => decide

theorem hexNumber_control : ∀ n < 32, hexNumber ['0', '0', hexDigit (n / 16), hexDigit (n % 16)] = some n := by
  decide

theorem readEscapes_lookup : ∀ e ∈ shortEscapes, e.1 ≠ 'u' ∧ readEscapes.lookup e.1 = some e.2 := by
  decide

theorem codeUnits_escapeChar (c : Char) (rest : List Char) :
    codeUnits (escapeChar c ++ rest) = (codeUnits rest).map (c.toNat :: ·) := by
  unfold escapeChar
  cases hfind : shortEscapes.find? fun e => e.2 = c with
  | some e =>
    obtain ⟨hletter, hlookup⟩ := readEscapes_lookup e (List.mem_of_find?_eq_some hfind)
    have hchar : e.2 = c := by simpa using List.find?_some hfind
    dsimp only [List.cons_append, List.nil_append]
    rw [codeUnits]
    · simp [hlookup, hchar]
    · intro a b c' d rest' hu
      exact absurd hu hletter
  | none =>
    dsimp only
    split
    · rename_i hcontrol
      dsimp only [List.cons_append, List.nil_append]
      rw [codeUnits, hexNumber_control c.toNat hcontrol]
      rfl
    · rename_i hcontrol
      have hplain : c ≠ '\\' := by
        rintro rfl
        revert hfind
        decide
      dsimp only [List.cons_append, List.nil_append]
      rw [codeUnits, if_neg (by simp [hplain, hcontrol])]
      · intro a b c' d rest' hu
        exact absurd hu hplain
      · intro e rest' hu
        exact absurd hu hplain

theorem codeUnits_flatMap (s : List Char) : codeUnits (s.flatMap escapeChar) = some (s.map Char.toNat) := by
  induction s with
  | nil => rfl
  | cons c s ih => rw [List.flatMap_cons, codeUnits_escapeChar, ih]; rfl

theorem joinUnits_toNat (s : List Char) : joinUnits (s.map Char.toNat) = some s := by
  induction s with
  | nil => rfl
  | cons c s ih =>
    have hvalid : c.toNat.isValidChar := c.valid
    cases s with
    | nil => simp [joinUnits, hvalid, Char.ofNat_toNat]
    | cons d s =>
      have hpair : ¬(0xd800 ≤ c.toNat ∧ c.toNat < 0xdc00 ∧ 0xdc00 ≤ d.toNat ∧ d.toNat < 0xe000) := by
        rcases hvalid with h | h <;> omega
      rw [List.map_cons] at ih
      rw [List.map_cons, List.map_cons, joinUnits, if_neg hpair, if_pos hvalid, ih]
      simp [Char.ofNat_toNat]

theorem decodeString_flatMap (s : List Char) : decodeString (s.flatMap escapeChar) = some s := by
  rw [decodeString, codeUnits_flatMap]
  exact joinUnits_toNat s

/-! ## Numbers are words -/

theorem isNumberChar_of_isDigit {c : Char} (h : c.isDigit = true) : isNumberChar c = true := by
  simp [isNumberChar, h]

theorem numberChars_digits {s : List Char} (h : isDigits s = true) : ∀ c ∈ s, isNumberChar c = true := by
  intro c hc
  simp only [isDigits, Bool.and_eq_true, List.all_eq_true] at h
  exact isNumberChar_of_isDigit (h.2 c hc)

theorem numberChars_exponent {s : List Char} (h : isExponent s = true) : ∀ c ∈ s, isNumberChar c = true := by
  have hletter {e : Char} (he : e = 'e' ∨ e = 'E') : isNumberChar e = true := by
    rcases he with rfl | rfl <;> decide
  unfold isExponent at h
  split at h
  · simp
  · simp only [Bool.and_eq_true, Bool.or_eq_true, decide_eq_true_eq] at h
    simpa [hletter h.1] using ⟨by decide, numberChars_digits h.2⟩
  · simp only [Bool.and_eq_true, Bool.or_eq_true, decide_eq_true_eq] at h
    simpa [hletter h.1] using ⟨by decide, numberChars_digits h.2⟩
  · simp only [Bool.and_eq_true, Bool.or_eq_true, decide_eq_true_eq] at h
    simpa [hletter h.1] using numberChars_digits h.2

theorem numberChars_takeWhile {s : List Char} (h : ∀ c ∈ s.dropWhile Char.isDigit, isNumberChar c = true) :
    ∀ c ∈ s, isNumberChar c = true := by
  intro c hc
  rw [← List.takeWhile_append_dropWhile (p := Char.isDigit) (l := s)] at hc
  rcases List.mem_append.mp hc with hc | hc
  · exact isNumberChar_of_isDigit (List.all_eq_true.mp List.all_takeWhile c hc)
  · exact h c hc

theorem numberChars_fraction {s : List Char} (h : isFraction s = true) : ∀ c ∈ s, isNumberChar c = true := by
  unfold isFraction at h
  split at h
  · simp only [Bool.and_eq_true] at h
    simpa using ⟨by decide, numberChars_takeWhile (numberChars_exponent h.2)⟩
  · exact numberChars_exponent h

theorem numberChars_unsigned {s : List Char} (h : isUnsigned s = true) : ∀ c ∈ s, isNumberChar c = true := by
  simp only [isUnsigned, Bool.and_eq_true] at h
  exact numberChars_takeWhile (numberChars_fraction h.2)

theorem numberChars {w : List Char} (h : isNumberText w = true) : ∀ c ∈ w, isNumberChar c = true := by
  have hbody {s : List Char} (hs : s = "Infinity".toList ∨ isUnsigned s = true) : ∀ c ∈ s, isNumberChar c = true := by
    rcases hs with rfl | hs
    · exact List.all_eq_true.mp (by decide)
    · exact numberChars_unsigned hs
  simp only [isNumberText, Bool.or_eq_true, decide_eq_true_eq] at h
  rcases h with rfl | h
  · exact List.all_eq_true.mp (by decide)
  · split at h
    · simp only [Bool.or_eq_true, decide_eq_true_eq] at h
      simpa using ⟨by decide, hbody h⟩
    · simp only [Bool.or_eq_true, decide_eq_true_eq] at h
      exact hbody h

theorem readWord_number {w : List Char} (h : isNumberText w = true) : readWord w = some (.number w) := by
  have hne {u : List Char} (hu : isNumberText u = false) : w ≠ u := by
    rintro rfl
    rw [h] at hu
    cases hu
  rw [readWord, if_neg (hne (by decide)), if_neg (hne (by decide)), if_neg (hne (by decide)), if_pos h]

/-! ## Tokens are read back -/

theorem tokens_head (v : Json) : ∃ token rest, v.tokens = token :: rest ∧ token ≠ .punct ']' := by
  cases v with
  | bool b => cases b <;> exact ⟨_, _, rfl, by simp⟩
  | _ => exact ⟨_, _, rfl, by simp⟩

theorem step_firstItem {stack : List JsonFrame} {token : JsonToken} (h : token ≠ .punct ']') :
    JsonParser.step (.firstItem stack) token = JsonParser.step (.value (.items [] :: stack)) token := by
  cases token with
  | punct c =>
    have hc : c ≠ ']' := by simpa using h
    simp [JsonParser.step]
  | text raw => rfl
  | word w => rfl

mutual
theorem run_value : ∀ {v : Json} {stack : List JsonFrame} {rest : List JsonToken}, v.Sound →
    (v.tokens ++ rest).foldlM JsonParser.step (.value stack) = rest.foldlM JsonParser.step (.after v stack)
  | .null, _, _, _ => rfl
  | .bool true, _, _, _ => rfl
  | .bool false, _, _, _ => rfl
  | .number w, stack, rest, hv => by
      simp [Json.tokens, JsonParser.step, JsonParser.readValue, readWord_number hv]
  | .str s, stack, rest, _ => by
      simp [Json.tokens, JsonParser.step, JsonParser.readValue, decodeString_flatMap]
  | .arr [], _, _, _ => rfl
  | .arr (v :: vs), stack, rest, hv => by
      obtain ⟨token, tokens, htokens, hne⟩ := tokens_head v
      have hfirst : (v.tokens ++ (Json.itemTokens false vs ++ rest)).foldlM JsonParser.step (.firstItem stack) =
          (v.tokens ++ (Json.itemTokens false vs ++ rest)).foldlM JsonParser.step (.value (.items [] :: stack)) := by
        rw [htokens, List.cons_append, List.foldlM_cons, List.foldlM_cons, step_firstItem hne]
      have hlist : (Json.arr (v :: vs)).tokens ++ rest =
          .punct '[' :: (v.tokens ++ (Json.itemTokens false vs ++ rest)) := by
        simp [Json.tokens, Json.itemTokens]
      rw [hlist, List.foldlM_cons]
      exact hfirst.trans ((run_value hv.1).trans (run_items hv.2))
  | .obj [], _, _, _ => rfl
  | .obj ((key, v) :: fields), stack, rest, hv => by
      have hobject : (Json.obj ((key, v) :: fields)).tokens ++ rest = .punct '{' ::
          .text (key.toList.flatMap escapeChar) :: .punct ':' :: (v.tokens ++ (Json.fieldTokens false fields ++ rest)) := by
        simp [Json.tokens, Json.fieldTokens]
      have hkey : JsonParser.readKey [] stack (.text (key.toList.flatMap escapeChar)) = some (.colon [] key stack) := by
        simp [JsonParser.readKey, decodeString_flatMap]
      rw [hobject, List.foldlM_cons]
      change (_ :: _ :: _).foldlM JsonParser.step (.firstKey stack) = _
      rw [List.foldlM_cons]
      change JsonParser.readKey [] stack (.text (key.toList.flatMap escapeChar)) >>= _ = _
      rw [hkey]
      exact (run_value hv.2.1).trans (run_fields hv.1 hv.2.2)

theorem run_items : ∀ {vs : List Json} {u : Json} {done : List Json} {stack : List JsonFrame} {rest : List JsonToken},
    Json.SoundItems vs → (Json.itemTokens false vs ++ rest).foldlM JsonParser.step (.after u (.items done :: stack)) =
      rest.foldlM JsonParser.step (.after (.arr (done ++ u :: vs)) stack)
  | [], _, _, _, _, _ => rfl
  | v :: vs, u, done, stack, rest, hvs => by
      have hlist : Json.itemTokens false (v :: vs) ++ rest =
          .punct ',' :: (v.tokens ++ (Json.itemTokens false vs ++ rest)) := by
        simp [Json.itemTokens]
      rw [hlist, List.foldlM_cons]
      refine (run_value hvs.1).trans ?_
      rw [run_items hvs.2]
      simp

theorem run_fields : ∀ {fields done : List (String × Json)} {key : String} {u : Json} {stack : List JsonFrame}
    {rest : List JsonToken}, Dict.Unique (done ++ (key, u) :: fields) → Json.SoundFields fields →
    (Json.fieldTokens false fields ++ rest).foldlM JsonParser.step (.after u (.field done key :: stack)) =
      rest.foldlM JsonParser.step (.after (.obj (done ++ (key, u) :: fields)) stack)
  | [], done, key, u, stack, rest, hunique, _ => by
      have hset : Dict.set key u done = done ++ [(key, u)] := Dict.set_of_notMem hunique.notMem_of_append u
      simp [Json.fieldTokens, JsonParser.step, hset]
  | (name, v) :: fields, done, key, u, stack, rest, hunique, hfields => by
      have hset : Dict.set key u done = done ++ [(key, u)] := Dict.set_of_notMem hunique.notMem_of_append u
      have hlist : Json.fieldTokens false ((name, v) :: fields) ++ rest = .punct ',' ::
          .text (name.toList.flatMap escapeChar) :: .punct ':' ::
            (v.tokens ++ (Json.fieldTokens false fields ++ rest)) := by
        simp [Json.fieldTokens]
      have hkey : JsonParser.readKey (done ++ [(key, u)]) stack (.text (name.toList.flatMap escapeChar)) =
          some (.colon (done ++ [(key, u)]) name stack) := by
        simp [JsonParser.readKey, decodeString_flatMap]
      rw [hlist, List.foldlM_cons]
      change (_ :: _ :: _).foldlM JsonParser.step (.nextKey (Dict.set key u done) stack) = _
      rw [hset, List.foldlM_cons]
      change JsonParser.readKey (done ++ [(key, u)]) stack (.text (name.toList.flatMap escapeChar)) >>= _ = _
      rw [hkey]
      refine (run_value hfields.1).trans ?_
      rw [run_fields (by simpa using hunique) hfields.2]
      simp
end

/-! ## Texts are cut into their tokens -/

/-- A character beyond ASCII stands inside a string. -/
def BeyondInside (_seen : List Char) (L : Lexer) (c : Char) : Prop := 127 ≤ c.toNat → ∃ raw, L.mode = .inside raw

/-- The text leads the lexer from one state to the other, with nothing beyond ASCII outside its strings. -/
def Leads (L : Lexer) (s : List Char) (L' : Lexer) : Prop :=
  replay Lexer.step L s = L' ∧ ∀ seen, EachEntry Lexer.step BeyondInside seen L s

theorem Leads.trans {L L' L'' : Lexer} {s s' : List Char} (h : Leads L s L') (h' : Leads L' s' L'') :
    Leads L (s ++ s') L'' := by
  obtain ⟨rfl, hs⟩ := h
  obtain ⟨rfl, hs'⟩ := h'
  exact ⟨replay_append, fun seen => eachEntry_append.mpr ⟨hs seen, hs' _⟩⟩

theorem Leads.step {L : Lexer} {c : Char} (h : c.toNat < 127) : Leads L [c] (L.step c) :=
  ⟨rfl, fun _ => ⟨fun hc => absurd hc (by omega), trivial⟩⟩

theorem Leads.cons {L L' : Lexer} {c : Char} {s : List Char} (h : c.toNat < 127) (hs : Leads (L.step c) s L') :
    Leads L (c :: s) L' := (Leads.step h).trans hs

/-- A part of a string that has no quote and no backslash. -/
theorem leads_plain {tokens : List JsonToken} {raw s : List Char} (h : ∀ c ∈ s, c ≠ '"' ∧ c ≠ '\\') :
    Leads ⟨tokens, .inside raw⟩ s ⟨tokens, .inside (raw ++ s)⟩ := by
  induction s generalizing raw with
  | nil => exact ⟨by simp, fun _ => trivial⟩
  | cons c s ih =>
    obtain ⟨⟨hquote, hslash⟩, hrest⟩ := List.forall_mem_cons.mp h
    have hstep : Leads ⟨tokens, .inside raw⟩ [c] ⟨tokens, .inside (raw ++ [c])⟩ :=
      ⟨by simp [Lexer.step, hquote, hslash], fun _ => ⟨fun _ => ⟨raw, rfl⟩, trivial⟩⟩
    simpa using hstep.trans (ih hrest)

theorem shortEscapes_ascii : ∀ e ∈ shortEscapes, e.1.toNat < 127 := by decide

theorem hexDigits_plain : ∀ c ∈ hexDigits, c ≠ '"' ∧ c ≠ '\\' := List.all_iff_forall_prop.mp (by decide)

theorem leads_escapeChar {tokens : List JsonToken} {raw : List Char} (c : Char) :
    Leads ⟨tokens, .inside raw⟩ (escapeChar c) ⟨tokens, .inside (raw ++ escapeChar c)⟩ := by
  unfold escapeChar
  cases hfind : shortEscapes.find? fun e => e.2 = c with
  | some e =>
    apply Leads.cons (by decide)
    apply Leads.step
    exact shortEscapes_ascii e (List.mem_of_find?_eq_some hfind)
  | none =>
    dsimp only
    split
    · have hplain : Leads ⟨tokens, .inside (raw ++ ['\\', 'u'])⟩
          ['0', '0', hexDigit (c.toNat / 16), hexDigit (c.toNat % 16)] _ := leads_plain (by
        simpa using ⟨hexDigits_plain _ (hexDigit_mem _), hexDigits_plain _ (hexDigit_mem _)⟩)
      rw [List.append_assoc] at hplain
      exact Leads.cons (by decide) (Leads.cons (by decide) hplain)
    · apply leads_plain
      rw [List.forall_mem_singleton]
      constructor <;> (rintro rfl; revert hfind; decide)

theorem leads_inside {tokens : List JsonToken} {raw s : List Char} :
    Leads ⟨tokens, .inside raw⟩ (s.flatMap escapeChar) ⟨tokens, .inside (raw ++ s.flatMap escapeChar)⟩ := by
  induction s generalizing raw with
  | nil => exact ⟨by simp, fun _ => trivial⟩
  | cons c s ih =>
    rw [List.flatMap_cons, ← List.append_assoc]
    exact (leads_escapeChar c).trans ih

theorem leads_quote {tokens : List JsonToken} {w s : List Char} :
    Leads ⟨tokens, .word w⟩ (quote s) ⟨tokens ++ wordTokens w ++ [.text (s.flatMap escapeChar)], .word []⟩ := by
  have hend : Leads ⟨tokens ++ wordTokens w, .inside (s.flatMap escapeChar)⟩ ['"'] _ := Leads.step (by decide)
  exact Leads.cons (by decide) (leads_inside.trans hend)

/-- A character that a word can have. -/
def isWordChar (c : Char) : Bool := c ≠ '"' && !isPunct c && !isBlank c && c.toNat < 127

theorem isWordChar_of_isNumberChar {c : Char} (h : isNumberChar c = true) : isWordChar c = true := by
  simp only [isNumberChar, Bool.or_eq_true, decide_eq_true_eq] at h
  rcases h with hdigit | hother
  · have hbounds : 48 ≤ c.toNat ∧ c.toNat ≤ 57 := Char.isDigit_iff_toNat.mp hdigit
    have hne (d : Char) (hd : d.toNat < 48 ∨ 57 < d.toNat) : c ≠ d := by
      rintro rfl
      omega
    have hquote := hne '"' (by decide)
    have hpunct : isPunct c = false := by
      simp [isPunct, hne '[' (by decide), hne ']' (by decide), hne '{' (by decide), hne '}' (by decide),
        hne ',' (by decide), hne ':' (by decide)]
    have hblank : isBlank c = false := by
      simp [isBlank, hne ' ' (by decide), hne '\t' (by decide), hne '\n' (by decide), hne '\r' (by decide)]
    have hascii : c.toNat < 127 := by omega
    simp [isWordChar, hquote, hpunct, hblank, hascii]
  · exact List.all_eq_true.mp (by decide) c hother

theorem leads_word {tokens : List JsonToken} {w s : List Char} (h : ∀ c ∈ s, isWordChar c = true) :
    Leads ⟨tokens, .word w⟩ s ⟨tokens, .word (w ++ s)⟩ := by
  induction s generalizing w with
  | nil => exact ⟨by simp, fun _ => trivial⟩
  | cons c s ih =>
    obtain ⟨hc, hrest⟩ := List.forall_mem_cons.mp h
    simp only [isWordChar, Bool.and_eq_true, decide_eq_true_eq, Bool.not_eq_true'] at hc
    obtain ⟨⟨⟨hquote, hpunct⟩, hblank⟩, hascii⟩ := hc
    have hstep : Lexer.step ⟨tokens, .word w⟩ c = ⟨tokens, .word (w ++ [c])⟩ := by
      simp [Lexer.step, hquote, hpunct, hblank]
    apply Leads.cons hascii
    rw [hstep]
    simpa using ih (w := w ++ [c]) hrest

theorem leads_punct {tokens : List JsonToken} {w : List Char} {c : Char} (h : isPunct c = true) :
    Leads ⟨tokens, .word w⟩ [c] ⟨tokens ++ wordTokens w ++ [.punct c], .word []⟩ := by
  have hascii : ∀ c ∈ ['[', ']', '{', '}', ',', ':'], c.toNat < 127 ∧ c ≠ '"' :=
    List.all_iff_forall_prop.mp (by decide)
  obtain ⟨hlt, hquote⟩ := hascii c (of_decide_eq_true h)
  have hstep := Leads.step (L := ⟨tokens, .word w⟩) hlt
  simpa [Lexer.step, hquote, h] using hstep

/-- The lexer has read the text of a value when a delimiter follows. -/
def Lexed (tokens : List JsonToken) (s : List Char) (more : List JsonToken) : Prop :=
  ∃ tokens' w, Leads ⟨tokens, .word []⟩ s ⟨tokens', .word w⟩ ∧ tokens' ++ wordTokens w = tokens ++ more

theorem Lexed.word {tokens : List JsonToken} {w : List Char} (h : ∀ c ∈ w, isWordChar c = true) (hne : w ≠ []) :
    Lexed tokens w [.word w] :=
  ⟨tokens, w, leads_word h, by simp [wordTokens, hne]⟩

theorem Lexed.done {tokens more : List JsonToken} {s : List Char}
    (h : Leads ⟨tokens, .word []⟩ s ⟨tokens ++ more, .word []⟩) : Lexed tokens s more :=
  ⟨tokens ++ more, [], h, by simp [wordTokens]⟩

theorem Lexed.leads {tokens more last : List JsonToken} {s s' : List Char} (h : Lexed tokens s more)
    (h' : ∀ tokens w, Leads ⟨tokens, .word w⟩ s' ⟨tokens ++ wordTokens w ++ last, .word []⟩) :
    Leads ⟨tokens, .word []⟩ (s ++ s') ⟨tokens ++ (more ++ last), .word []⟩ := by
  obtain ⟨tokens', w, hs, hsame⟩ := h
  have hall := hs.trans (h' tokens' w)
  rwa [hsame, List.append_assoc] at hall

/-- A blank is no token. -/
theorem leads_blank {tokens last : List JsonToken} {w : List Char} {s : List Char} {c : Char} (h : isPunct c = true)
    (hs : Leads ⟨tokens ++ wordTokens w ++ [.punct c], .word []⟩ s
      ⟨tokens ++ wordTokens w ++ [.punct c] ++ last, .word []⟩) :
    Leads ⟨tokens, .word w⟩ (c :: ' ' :: s) ⟨tokens ++ wordTokens w ++ (.punct c :: last), .word []⟩ := by
  have hblank : Leads ⟨tokens ++ wordTokens w ++ [.punct c], .word []⟩ [' '] _ := Leads.step (by decide)
  have hstep : Lexer.step ⟨tokens ++ wordTokens w ++ [.punct c], .word []⟩ ' ' =
      ⟨tokens ++ wordTokens w ++ [.punct c], .word []⟩ := by
    simp [Lexer.step, isPunct, isBlank, wordTokens]
  rw [hstep] at hblank
  have hall := (leads_punct h).trans (hblank.trans hs)
  simpa using hall

theorem leads_field {tokens last : List JsonToken} {key s : List Char}
    (h : ∀ tokens, Leads ⟨tokens, .word []⟩ s ⟨tokens ++ last, .word []⟩) :
    Leads ⟨tokens, .word []⟩ (quote key ++ ':' :: ' ' :: s)
      ⟨tokens ++ (.text (key.flatMap escapeChar) :: .punct ':' :: last), .word []⟩ := by
  have hcolon := @leads_blank (tokens ++ [.text (key.flatMap escapeChar)]) last [] s ':' (by decide) (h _)
  have hall := (@leads_quote tokens [] key).trans (by simpa [wordTokens] using hcolon)
  simpa [wordTokens] using hall

mutual
theorem lexed_render : ∀ {v : Json} {tokens : List JsonToken}, v.Sound → Lexed tokens v.render v.tokens
  | .null, _, _ => Lexed.word (List.all_eq_true.mp (by decide)) (List.cons_ne_nil _ _)
  | .bool true, _, _ => Lexed.word (List.all_eq_true.mp (by decide)) (List.cons_ne_nil _ _)
  | .bool false, _, _ => Lexed.word (List.all_eq_true.mp (by decide)) (List.cons_ne_nil _ _)
  | .number w, _, hv => by
      apply Lexed.word
      · intro c hc
        exact isWordChar_of_isNumberChar (numberChars hv c hc)
      · rintro rfl
        exact absurd hv (by simp [Json.Sound, isNumberText, isUnsigned, isDigits])
  | .str s, tokens, _ => by
      apply Lexed.done
      simpa [wordTokens, Json.render, Json.tokens] using @leads_quote tokens [] s
  | .arr items, tokens, hv => by
      apply Lexed.done
      have hopen : Leads ⟨tokens, .word []⟩ ['['] _ := leads_punct (by decide)
      have hitems := @leads_items items true (tokens ++ [.punct '[']) [] hv (by simp)
      simpa [wordTokens, Json.render, Json.tokens] using hopen.trans (by simpa [wordTokens] using hitems)
  | .obj fields, tokens, hv => by
      apply Lexed.done
      have hopen : Leads ⟨tokens, .word []⟩ ['{'] _ := leads_punct (by decide)
      have hfields := @leads_fields fields true (tokens ++ [.punct '{']) [] hv.2 (by simp)
      simpa [wordTokens, Json.render, Json.tokens] using hopen.trans (by simpa [wordTokens] using hfields)

theorem leads_items : ∀ {vs : List Json} {first : Bool} {tokens : List JsonToken} {w : List Char},
    Json.SoundItems vs → (first = true → w = []) →
    Leads ⟨tokens, .word w⟩ (Json.renderItems first vs) ⟨tokens ++ wordTokens w ++ Json.itemTokens first vs, .word []⟩
  | [], _, _, _, _, _ => leads_punct (by decide)
  | v :: vs, true, tokens, w, hvs, hw => by
      have hall := (@lexed_render v tokens hvs.1).leads fun tokens w =>
        @leads_items vs false tokens w hvs.2 (by simp)
      rw [hw rfl]
      simpa [wordTokens, Json.renderItems, Json.itemTokens] using hall
  | v :: vs, false, tokens, w, hvs, _ => by
      apply leads_blank (by decide)
      have hall := (@lexed_render v (tokens ++ wordTokens w ++ [.punct ',']) hvs.1).leads fun tokens w =>
        @leads_items vs false tokens w hvs.2 (by simp)
      exact hall

theorem leads_fields : ∀ {fields : List (String × Json)} {first : Bool} {tokens : List JsonToken} {w : List Char},
    Json.SoundFields fields → (first = true → w = []) →
    Leads ⟨tokens, .word w⟩ (Json.renderFields first fields)
      ⟨tokens ++ wordTokens w ++ Json.fieldTokens first fields, .word []⟩
  | [], _, _, _, _, _ => leads_punct (by decide)
  | (key, v) :: fields, true, tokens, w, hfields, hw => by
      have hall := @leads_field tokens _ key.toList _ fun _ => (lexed_render hfields.1).leads fun tokens w =>
        @leads_fields fields false tokens w hfields.2 (by simp)
      rw [hw rfl]
      simpa [wordTokens, Json.renderFields, Json.fieldTokens] using hall
  | (key, v) :: fields, false, tokens, w, hfields, _ => by
      apply leads_blank (by decide)
      exact leads_field fun _ => (lexed_render hfields.1).leads fun tokens w =>
        @leads_fields fields false tokens w hfields.2 (by simp)
end

theorem lex_render {v : Json} (hv : v.Sound) : lex v.render = some v.tokens := by
  obtain ⟨tokens, w, hleads, hsame⟩ := @lexed_render v [] hv
  rw [lex, hleads.1]
  exact congrArg some hsame

/-- What is written is read back. -/
theorem loads_render {v : Json} (hv : v.Sound) : loads v.render = some v := by
  have hrun := @run_value v [] [] hv
  rw [List.append_nil] at hrun
  rw [loads, lex_render hv]
  change (v.tokens.foldlM JsonParser.step (.value [])).bind _ = _
  rw [hrun]
  rfl

/-- What stands before a character beyond ASCII ends inside a string. -/
theorem loads_cut {v : Json} (hv : v.Sound) {u u' : List Char} {c : Char} (h : v.render = u ++ c :: u')
    (hc : 127 ≤ c.toNat) : loads u = none := by
  obtain ⟨_, _, hleads, _⟩ := @lexed_render v [] hv
  have hbeyond := hleads.2 []
  rw [h] at hbeyond
  obtain ⟨raw, hmode⟩ := EachEntry.at hbeyond hc
  have hlex : lex u = none := by
    rw [lex]
    simp [hmode]
  rw [loads, hlex]
  rfl

/-! ## The characters of a text -/

section

variable {c : Char}

/-- ASCII that is printed. -/
def IsPlain (c : Char) : Prop := 32 ≤ c.toNat ∧ c.toNat < 127

instance : Decidable (IsPlain c) := inferInstanceAs (Decidable (_ ∧ _))

theorem IsPlain.apart {p : Prop} (h : IsPlain c) : 32 ≤ c.toNat ∧ (127 ≤ c.toNat → p) :=
  ⟨h.1, fun hbeyond => absurd h.2 (by omega)⟩

theorem escapeChar_chars {d : Char} (h : c ∈ escapeChar d) : 32 ≤ c.toNat ∧ (127 ≤ c.toNat → c = d) := by
  have hletters : ∀ e ∈ shortEscapes, IsPlain e.1 := by decide
  have hdigits : ∀ d ∈ hexDigits, IsPlain d := List.all_iff_forall_prop.mp (by decide)
  unfold escapeChar at h
  split at h
  · rename_i e hfind
    have he := hletters e (List.mem_of_find?_eq_some hfind)
    rcases List.mem_cons.mp h with rfl | h
    · exact (by decide : IsPlain '\\').apart
    · rw [List.mem_singleton.mp h]
      exact IsPlain.apart he
  · split at h
    · have hc : IsPlain c := by
        simp only [List.mem_cons, List.not_mem_nil, or_false] at h
        rcases h with rfl | rfl | rfl | rfl | rfl | rfl
        · decide
        · decide
        · decide
        · decide
        · exact hdigits _ (hexDigit_mem _)
        · exact hdigits _ (hexDigit_mem _)
      exact hc.apart
    · rw [List.mem_singleton.mp h]
      exact ⟨by omega, fun _ => rfl⟩

theorem escapeChar_beyond (h : 127 ≤ c.toNat) : escapeChar c = [c] := by
  have hascii : ∀ e ∈ shortEscapes, e.2.toNat < 127 := by decide
  have hfind : shortEscapes.find? (fun e => e.2 = c) = none := by
    rw [List.find?_eq_none]
    intro e he hsame
    have hlt := hascii e he
    rw [of_decide_eq_true hsame] at hlt
    omega
  rw [escapeChar, hfind]
  exact if_neg (by omega)

theorem quote_chars {s : List Char} (h : c ∈ quote s) : 32 ≤ c.toNat ∧ (127 ≤ c.toNat → c ∈ s) := by
  simp only [quote, List.mem_cons, List.mem_append, List.mem_flatMap, List.not_mem_nil, or_false] at h
  rcases h with rfl | ⟨d, hd, hc⟩ | rfl
  · exact (by decide : IsPlain '"').apart
  · obtain ⟨hprintable, hsame⟩ := escapeChar_chars hc
    exact ⟨hprintable, fun hbeyond => hsame hbeyond ▸ hd⟩
  · exact (by decide : IsPlain '"').apart

theorem mem_quote {s : List Char} (h : c ∈ s) (hbeyond : 127 ≤ c.toNat) : c ∈ quote s := by
  have hmem : c ∈ s.flatMap escapeChar := List.mem_flatMap.mpr ⟨c, h, by simp [escapeChar_beyond hbeyond]⟩
  simp [quote, hmem]

theorem number_chars (h : isNumberChar c = true) : 43 ≤ c.toNat ∧ c.toNat < 127 := by
  simp only [isNumberChar, Bool.or_eq_true, decide_eq_true_eq] at h
  rcases h with hdigit | hother
  · have hbounds : 48 ≤ c.toNat ∧ c.toNat ≤ 57 := Char.isDigit_iff_toNat.mp hdigit
    exact ⟨by omega, by omega⟩
  · have hsigns : ∀ c ∈ "+-.eEaNInfity".toList, 43 ≤ c.toNat ∧ c.toNat < 127 :=
      List.all_iff_forall_prop.mp (by decide)
    exact hsigns c hother

/-- What stands between two values. -/
theorem separator_plain {first : Bool} (h : c ∈ if first = true then [] else [',', ' ']) : IsPlain c := by
  cases first with
  | true => cases h
  | false => exact List.all_iff_forall_prop.mp (by decide) c h

mutual
theorem render_chars : ∀ {v : Json}, v.Sound → c ∈ v.render → 32 ≤ c.toNat ∧ (127 ≤ c.toNat → c ∈ v.chars)
  | .null, _, h => by
      have hplain : ∀ c ∈ Json.null.render, IsPlain c := List.all_iff_forall_prop.mp (by decide)
      exact (hplain c h).apart
  | .bool true, _, h => by
      have hplain : ∀ c ∈ (Json.bool true).render, IsPlain c := List.all_iff_forall_prop.mp (by decide)
      exact (hplain c h).apart
  | .bool false, _, h => by
      have hplain : ∀ c ∈ (Json.bool false).render, IsPlain c := List.all_iff_forall_prop.mp (by decide)
      exact (hplain c h).apart
  | .number w, hv, h => by
      obtain ⟨hlow, hhigh⟩ := number_chars (numberChars hv c h)
      exact IsPlain.apart ⟨by omega, hhigh⟩
  | .str s, _, h => quote_chars h
  | .arr items, hv, h => by
      rcases List.mem_cons.mp h with rfl | h
      · exact (by decide : IsPlain '[').apart
      · exact renderItems_chars hv h
  | .obj fields, hv, h => by
      rcases List.mem_cons.mp h with rfl | h
      · exact (by decide : IsPlain '{').apart
      · exact renderFields_chars hv.2 h

theorem renderItems_chars : ∀ {vs : List Json} {first : Bool}, Json.SoundItems vs → c ∈ Json.renderItems first vs →
    32 ≤ c.toNat ∧ (127 ≤ c.toNat → c ∈ Json.itemChars vs)
  | [], _, _, h => by
      rw [List.mem_singleton.mp h]
      exact (by decide : IsPlain ']').apart
  | v :: vs, first, hvs, h => by
      rcases List.mem_append.mp h with h | h
      · exact (separator_plain h).apart
      · rcases List.mem_append.mp h with h | h
        · obtain ⟨hprintable, hmem⟩ := render_chars hvs.1 h
          exact ⟨hprintable, fun hbeyond => List.mem_append_left _ (hmem hbeyond)⟩
        · obtain ⟨hprintable, hmem⟩ := renderItems_chars hvs.2 h
          exact ⟨hprintable, fun hbeyond => List.mem_append_right _ (hmem hbeyond)⟩

theorem renderFields_chars : ∀ {fields : List (String × Json)} {first : Bool}, Json.SoundFields fields →
    c ∈ Json.renderFields first fields → 32 ≤ c.toNat ∧ (127 ≤ c.toNat → c ∈ Json.fieldChars fields)
  | [], _, _, h => by
      rw [List.mem_singleton.mp h]
      exact (by decide : IsPlain '}').apart
  | (key, v) :: fields, first, hfields, h => by
      rcases List.mem_append.mp h with h | h
      · exact (separator_plain h).apart
      · rcases List.mem_append.mp h with h | h
        · obtain ⟨hprintable, hmem⟩ := quote_chars h
          exact ⟨hprintable, fun hbeyond => List.mem_append_left _ (hmem hbeyond)⟩
        · rcases List.mem_cons.mp h with rfl | h
          · exact (by decide : IsPlain ':').apart
          · rcases List.mem_cons.mp h with rfl | h
            · exact (by decide : IsPlain ' ').apart
            · rcases List.mem_append.mp h with h | h
              · obtain ⟨hprintable, hmem⟩ := render_chars hfields.1 h
                exact ⟨hprintable, fun hbeyond =>
                  List.mem_append_right _ (List.mem_append_left _ (hmem hbeyond))⟩
              · obtain ⟨hprintable, hmem⟩ := renderFields_chars hfields.2 h
                exact ⟨hprintable, fun hbeyond =>
                  List.mem_append_right _ (List.mem_append_right _ (hmem hbeyond))⟩
end

mutual
theorem mem_render (hbeyond : 127 ≤ c.toNat) : ∀ {v : Json}, c ∈ v.chars → c ∈ v.render
  | .str _, h => mem_quote h hbeyond
  | .arr _, h => List.mem_cons_of_mem _ (mem_renderItems hbeyond h)
  | .obj _, h => List.mem_cons_of_mem _ (mem_renderFields hbeyond h)

theorem mem_renderItems (hbeyond : 127 ≤ c.toNat) : ∀ {vs : List Json} {first : Bool}, c ∈ Json.itemChars vs →
    c ∈ Json.renderItems first vs
  | v :: vs, first, h => by
      apply List.mem_append_right
      rcases List.mem_append.mp h with h | h
      · exact List.mem_append_left _ (mem_render hbeyond h)
      · exact List.mem_append_right _ (mem_renderItems hbeyond h)

theorem mem_renderFields (hbeyond : 127 ≤ c.toNat) : ∀ {fields : List (String × Json)} {first : Bool},
    c ∈ Json.fieldChars fields → c ∈ Json.renderFields first fields
  | (key, v) :: fields, first, h => by
      apply List.mem_append_right
      rcases List.mem_append.mp h with h | h
      · exact List.mem_append_left _ (mem_quote h hbeyond)
      · apply List.mem_append_right
        apply List.mem_cons_of_mem
        apply List.mem_cons_of_mem
        rcases List.mem_append.mp h with h | h
        · exact List.mem_append_left _ (mem_render hbeyond h)
        · exact List.mem_append_right _ (mem_renderFields hbeyond h)
end

end

end YiQiao.Lib
