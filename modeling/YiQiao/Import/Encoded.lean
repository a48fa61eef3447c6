import YiQiao.Import.Text

/-!
# Cutting encoded text

`_split_encoded_text` cuts the UTF-8 bytes of a text behind every so many tokens, moved back to the start of a
character, and decodes each slice. A slice that did not decode would send the text to the splitter without an encoder.
-/

namespace YiQiao

/-! ## Bytes -/

/-- `str.encode("utf-8")`. -/
def utf8Bytes (text : Text) : List UInt8 := text.flatMap String.utf8EncodeChar

/-- `bytes.decode("utf-8")`. -/
def decodeUtf8 (raw : List UInt8) : Option Text := raw.toByteArray.utf8Decode?.map Array.toList

def isContinuation (byte : UInt8) : Bool := byte &&& 0xC0 == 0x80

/-- The loop of `_safe_utf8_boundary`. -/
def moveBack (raw : List UInt8) : Nat → Nat
  | 0 => 0
  | boundary + 1 => if raw[boundary + 1]?.any isContinuation then moveBack raw boundary else boundary + 1

/-- `_safe_utf8_boundary`. -/
def safeUtf8Boundary (raw : List UInt8) (boundary : Nat) : Nat := moveBack raw (min boundary raw.length)

/-- The loop over the tokens of a text, on bytes. -/
def encodedSlices (raw : List UInt8) (maxTokens count : Nat) :
    Nat → Nat → Nat → List (List UInt8) → Option (List Text)
  | _, _, previous, [] => if previous < raw.length then (decodeUtf8 (raw.drop previous)).map ([·]) else some []
  | index, offset, previous, token :: tokens =>
      if (index + 1) % maxTokens ≠ 0 ∨ index + 1 = count then
        encodedSlices raw maxTokens count (index + 1) (offset + token.length) previous tokens
      else
        let boundary := safeUtf8Boundary raw (offset + token.length)
        if boundary ≤ previous then
          encodedSlices raw maxTokens count (index + 1) (offset + token.length) previous tokens
        else do
          let part ← decodeUtf8 ((raw.take boundary).drop previous)
          let parts ← encodedSlices raw maxTokens count (index + 1) (offset + token.length) boundary tokens
          pure (part :: parts)

/-- `_split_encoded_text`, with the bytes of the tokens; `none` where a slice does not decode. -/
def splitEncodedBytes (text : Text) (maxTokens : Nat) (tokens : List (List UInt8)) : Option (List Text) :=
  if tokens.length ≤ maxTokens then some [text]
  else encodedSlices (utf8Bytes text) maxTokens tokens.length 0 0 0 tokens

/-- The encoder as it is: the bytes of every token of a text, where `tiktoken` is there and does not raise. -/
structure ByteTokenizer where
  encode : Option (Text → Option (List (List UInt8)))
  isDecimal : Char → Bool

namespace ByteTokenizer

/-- What the cutting of text needs of it. -/
def tokenizer (B : ByteTokenizer) : Tokenizer where
  encode := B.encode.map fun encode text => (encode text).map (List.map List.length)
  isDecimal := B.isDecimal

/-- `_split_atomic_text`, on bytes. -/
def splitAtomicBytes (B : ByteTokenizer) (text : Text) (maxTokens : Nat) : List Text :=
  match B.encode.bind fun encode => encode text with
  | some tokens => (splitEncodedBytes text maxTokens tokens).getD (splitFallbackText B.tokenizer text maxTokens)
  | none => splitFallbackText B.tokenizer text maxTokens

end ByteTokenizer

/-! ## Characters and their bytes -/

theorem decodeUtf8_utf8Bytes (text : Text) : decodeUtf8 (utf8Bytes text) = some text := by
  have h : (utf8Bytes text).toByteArray = text.utf8Encode := rfl
  simp [decodeUtf8, h]

theorem utf8Bytes_append (text rest : Text) : utf8Bytes (text ++ rest) = utf8Bytes text ++ utf8Bytes rest := by
  simp [utf8Bytes]

theorem utf8Bytes_cons (c : Char) (text : Text) : utf8Bytes (c :: text) = String.utf8EncodeChar c ++ utf8Bytes text := by
  simp [utf8Bytes]

theorem continuation_of_lt : ∀ n : Fin 64, isContinuation (UInt8.ofNat (n + 0x80)) = true := by decide

theorem lead_of_ascii : ∀ n : Fin 128, isContinuation (UInt8.ofNat n) = false := by decide

theorem lead_of_two : ∀ n : Fin 32, isContinuation (UInt8.ofNat (n + 0xc0)) = false := by decide

theorem lead_of_three : ∀ n : Fin 16, isContinuation (UInt8.ofNat (n + 0xe0)) = false := by decide

theorem lead_of_four : ∀ n : Fin 8, isContinuation (UInt8.ofNat (n + 0xf0)) = false := by decide

/-- A character is a byte that is no continuation, and continuations. -/
theorem utf8EncodeChar_shape (c : Char) : ∃ lead tail, String.utf8EncodeChar c = lead :: tail ∧
    isContinuation lead = false ∧ ∀ byte ∈ tail, isContinuation byte = true := by
  have hsix : ∀ n : Nat, isContinuation (UInt8.ofNat (n % 0x40 + 0x80)) = true :=
    fun n => continuation_of_lt ⟨n % 0x40, Nat.mod_lt _ (by omega)⟩
  unfold String.utf8EncodeChar
  dsimp only
  split
  · rename_i hsmall
    exact ⟨_, _, rfl, lead_of_ascii ⟨c.val.toNat, by omega⟩, by simp⟩
  · split
    · refine ⟨_, _, rfl, lead_of_two ⟨c.val.toNat / 64 % 0x20, Nat.mod_lt _ (by omega)⟩, ?_⟩
      simp only [List.forall_mem_cons]
      exact ⟨hsix _, by simp⟩
    · split
      · refine ⟨_, _, rfl, lead_of_three ⟨c.val.toNat / 4096 % 0x10, Nat.mod_lt _ (by omega)⟩, ?_⟩
        simp only [List.forall_mem_cons]
        exact ⟨hsix _, hsix _, by simp⟩
      · refine ⟨_, _, rfl, lead_of_four ⟨c.val.toNat / 262144 % 0x08, Nat.mod_lt _ (by omega)⟩, ?_⟩
        simp only [List.forall_mem_cons]
        exact ⟨hsix _, hsix _, hsix _, by simp⟩

/-- No character starts with a continuation. -/
theorem utf8Bytes_head (text : Text) : ((utf8Bytes text)[0]?).any isContinuation = false := by
  cases text with
  | nil => rfl
  | cons c text =>
      obtain ⟨lead, tail, hshape, hlead, -⟩ := utf8EncodeChar_shape c
      simp [utf8Bytes_cons, hshape, hlead]

/-! ## Moving back -/

section

variable {front rest : List UInt8}

theorem moveBack_append (hfront : front ≠ []) (hrest : rest[0]?.any isContinuation = false) (n : Nat) :
    moveBack (front ++ rest) (front.length + n) = front.length + moveBack rest n := by
  induction n with
  | zero =>
      obtain ⟨k, hk⟩ := Nat.exists_eq_succ_of_ne_zero (mt List.length_eq_zero_iff.mp hfront)
      have hget : (front ++ rest)[k + 1]? = rest[0]? := by
        rw [List.getElem?_append_right (by omega), hk, Nat.succ_eq_add_one, Nat.sub_self]
      change moveBack (front ++ rest) front.length = front.length
      rw [hk, Nat.succ_eq_add_one, moveBack, hget, hrest]
      rfl
  | succ n ih =>
      have hget : (front ++ rest)[front.length + n + 1]? = rest[n + 1]? := by
        rw [List.getElem?_append_right (by omega)]
        congr 1
        omega
      rw [← Nat.add_assoc, moveBack, moveBack, hget, ih]
      split <;> omega

/-- Within a character everything moves back to its start. -/
theorem moveBack_within {lead : UInt8} {tail : List UInt8} (htail : ∀ byte ∈ tail, isContinuation byte = true)
    {n : Nat} (hn : n ≤ tail.length) : moveBack (lead :: tail ++ rest) n = 0 := by
  induction n with
  | zero => rfl
  | succ n ih =>
      have hget : (lead :: tail ++ rest)[n + 1]? = some tail[n] := by
        rw [List.cons_append, List.getElem?_cons_succ, List.getElem?_append_left hn, List.getElem?_eq_getElem]
      rw [moveBack, hget, Option.any_some, htail _ (List.getElem_mem hn), if_pos rfl, ih (by omega)]

end

/-- The bytes of the first characters. -/
def byteOffset (text : Text) (n : Nat) : Nat := (utf8Bytes (text.take n)).length

theorem utf8Bytes_length (text : Text) : (utf8Bytes text).length = byteOffset text text.length := by
  rw [byteOffset, List.take_length]

/-- The boundary in bytes is the boundary in characters. -/
theorem safeUtf8Boundary_eq (text : Text) (bytes : Nat) :
    safeUtf8Boundary (utf8Bytes text) bytes = byteOffset text (safeBoundary text bytes) := by
  induction text generalizing bytes with
  | nil => simp [safeUtf8Boundary, moveBack, byteOffset, utf8Bytes]
  | cons c rest ih =>
      obtain ⟨lead, tail, hshape, hlead, htail⟩ := utf8EncodeChar_shape c
      have hsize : (lead :: tail).length = c.utf8Size := by rw [← hshape, String.length_utf8EncodeChar]
      rw [safeBoundary, utf8Bytes_cons, hshape, safeUtf8Boundary]
      split
      · rename_i hfits
        have hsplit : min bytes (lead :: tail ++ utf8Bytes rest).length =
            (lead :: tail).length + min (bytes - c.utf8Size) (utf8Bytes rest).length := by
          rw [List.length_append]
          omega
        have hrest := ih (bytes - c.utf8Size)
        rw [safeUtf8Boundary] at hrest
        rw [hsplit, moveBack_append (List.cons_ne_nil _ _) (utf8Bytes_head rest), hrest, byteOffset, byteOffset,
          List.take_succ_cons, utf8Bytes_cons, List.length_append, hshape]
      · rename_i hlong
        rw [moveBack_within htail]
        · simp [byteOffset, utf8Bytes]
        · simp only [List.length_cons, List.length_append] at hsize ⊢
          omega

theorem byteOffset_strictMono {text : Text} {i j : Nat} (hij : i < j) (hj : j ≤ text.length) :
    byteOffset text i < byteOffset text j := by
  obtain ⟨extra, rfl⟩ := Nat.exists_eq_add_of_lt hij
  have hsplit : text.take (i + extra + 1) = text.take i ++ (text.drop i).take (extra + 1) := by
    rw [Nat.add_assoc, List.take_add]
  rw [byteOffset, byteOffset, hsplit, utf8Bytes_append, List.length_append]
  cases hdrop : (text.drop i).take (extra + 1) with
  | nil =>
      have hlength := congrArg List.length hdrop
      rw [List.length_take, List.length_drop, List.length_nil] at hlength
      omega
  | cons c rest =>
      rw [utf8Bytes_cons, List.length_append, String.length_utf8EncodeChar]
      have hpos := c.utf8Size_pos
      omega

/-- A slice of the bytes between two characters. -/
theorem slice_utf8Bytes (text : Text) {i j : Nat} (hij : i ≤ j) :
    ((utf8Bytes text).take (byteOffset text j)).drop (byteOffset text i) = utf8Bytes ((text.take j).drop i) := by
  have htake : (utf8Bytes text).take (byteOffset text j) = utf8Bytes (text.take j) := by
    conv_lhs => rw [← List.take_append_drop j text, utf8Bytes_append]
    rw [List.take_append_drop, byteOffset, List.take_left]
  have hfront : byteOffset text i = (utf8Bytes ((text.take j).take i)).length := by
    rw [byteOffset, List.take_take, min_eq_left hij]
  conv_lhs => rw [htake, ← List.take_append_drop i (text.take j), utf8Bytes_append, hfront]
  rw [List.drop_left]

/-! ## No slice fails to decode -/

theorem encodedSlices_eq (text : Text) (maxTokens count index offset previous : Nat) (tokens : List (List UInt8))
    (hprevious : previous ≤ text.length) :
    encodedSlices (utf8Bytes text) maxTokens count index offset (byteOffset text previous) tokens =
      some (encodedParts text maxTokens count index offset previous (tokens.map List.length)) := by
  induction tokens generalizing index offset previous with
  | nil =>
      rw [List.map_nil, encodedSlices, encodedParts, utf8Bytes_length]
      rcases Nat.lt_or_ge previous text.length with hlt | hge
      · have hslice := slice_utf8Bytes text hprevious
        rw [← utf8Bytes_length, List.take_length, List.take_length] at hslice
        rw [if_pos (byteOffset_strictMono hlt le_rfl), if_pos hlt, hslice, decodeUtf8_utf8Bytes]
        rfl
      · rw [if_neg (by rw [Nat.le_antisymm hprevious hge]; exact lt_irrefl _), if_neg (by omega)]
  | cons token tokens ih =>
      have hboundary := safeBoundary_le text (offset + token.length)
      rw [List.map_cons, encodedSlices, encodedParts]
      dsimp only
      rw [safeUtf8Boundary_eq]
      by_cases hskip : (index + 1) % maxTokens ≠ 0 ∨ index + 1 = count
      · rw [if_pos hskip, if_pos (by tauto), ih _ _ _ hprevious]
      · rw [if_neg hskip]
        rcases Nat.lt_or_ge previous (safeBoundary text (offset + token.length)) with hlt | hge
        · have hlater := byteOffset_strictMono hlt hboundary
          rw [if_neg (by omega), if_neg (by omega), slice_utf8Bytes text hlt.le, decodeUtf8_utf8Bytes, ih _ _ _ hboundary]
          rfl
        · have hearlier : byteOffset text (safeBoundary text (offset + token.length)) ≤ byteOffset text previous := by
            rcases hge.lt_or_eq with hlt | heq
            · exact (byteOffset_strictMono hlt hprevious).le
            · rw [heq]
          rw [if_pos hearlier, if_pos (by tauto), ih _ _ _ hprevious]

/-- On bytes the text is cut where it is cut on characters. -/
theorem splitEncodedBytes_eq (text : Text) (maxTokens : Nat) (tokens : List (List UInt8)) :
    splitEncodedBytes text maxTokens tokens = some (splitEncodedText text maxTokens (tokens.map List.length)) := by
  have hslices := encodedSlices_eq text maxTokens tokens.length 0 0 0 tokens (Nat.zero_le _)
  rw [splitEncodedBytes, splitEncodedText, List.length_map]
  split
  · rfl
  · exact hslices

theorem ByteTokenizer.splitAtomicBytes_eq (B : ByteTokenizer) (text : Text) (maxTokens : Nat) :
    B.splitAtomicBytes text maxTokens = splitAtomicText B.tokenizer text maxTokens := by
  rw [splitAtomicBytes, splitAtomicText, tokenizer]
  cases B.encode with
  | none => rfl
  | some encode =>
      cases htokens : encode text with
      | none => simp [htokens]
      | some tokens => simp [htokens, splitEncodedBytes_eq]

/-- The parts of a text join back to it, none of them is empty if the text is not, and no slice of bytes that is taken
for them fails to decode. -/
theorem splitTextByTokens_lossless (B : ByteTokenizer) (text : Text) (maxTokens : Int) :
    (splitTextByTokens B.tokenizer text maxTokens.toNat).flatten = text ∧
      (text ≠ [] → splitTextByTokens B.tokenizer text maxTokens.toNat ≠ [] ∧
        ∀ part ∈ splitTextByTokens B.tokenizer text maxTokens.toNat, part ≠ []) ∧
      ∀ unit ∈ textUnits text, B.splitAtomicBytes unit (max 1 maxTokens.toNat) =
        splitAtomicText B.tokenizer unit (max 1 maxTokens.toNat) ∧
        ∀ encode tokens, B.encode = some encode → encode unit = some tokens →
          splitEncodedBytes unit (max 1 maxTokens.toNat) tokens ≠ none := by
  have hflatten := @splitTextByTokens_text B.tokenizer text maxTokens.toNat
  refine ⟨hflatten, fun htext => ⟨fun hnil => htext ?_, splitTextByTokens_ne _ htext⟩, fun unit _ => ⟨?_, ?_⟩⟩
  · rw [← hflatten, hnil, List.flatten_nil]
  · apply B.splitAtomicBytes_eq
  · intro encode tokens _ _
    rw [splitEncodedBytes_eq]
    exact Option.some_ne_none _

end YiQiao
