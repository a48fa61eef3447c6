import Mathlib.Data.List.Dedup
import Mathlib.Data.List.Infix
import YiQiao.Memory.Search

/-!
# Lexical scores

Memories without an embedding are compared with a query by the terms they share: Latin words, and the pieces of two to
four characters of Chinese runs.
-/

namespace YiQiao

variable {S : Type}

/-- What the lexical score asks of Unicode and of floating-point arithmetic. -/
structure LexicalTools (S : Type) where
  /-- `unicodedata.normalize("NFKC", value).casefold()`. -/
  normalize : String → String
  /-- `float(n)`. -/
  number : Nat → S
  /-- `0.98`. -/
  phraseScore : S
  /-- `0.85`. -/
  firstLineFactor : S

/-! ## Terms -/

/-- `[\u3400-\u9fff]`. -/
def isCjk (c : Char) : Bool := 0x3400 ≤ c.toNat && c.toNat ≤ 0x9fff

/-- `[a-z0-9]` without regard to case, under which four other letters count as `i`, `s` and `k`. -/
def isWordStart (c : Char) : Bool := c.isAlphanum || c ∈ ['İ', 'ı', 'ſ', 'K']

def isWordPart (c : Char) : Bool := isWordStart c || c ∈ ['_', '+', '#', '.', '-']

/-- The longest runs of characters. -/
def characterRuns (p : Char → Bool) (text : List Char) : List (List Char) :=
  (text.splitOnP fun c => !p c).filter (· ≠ [])

/-- `_LEXICAL_WORD.findall`: a word is a run of its characters from the first that may begin it. -/
def lexicalWords (text : List Char) : List (List Char) :=
  ((characterRuns isWordPart text).map (List.dropWhile fun c => !isWordStart c)).filter (· ≠ [])

/-- The pieces of a run that have a width. -/
def piecesOf (run : List Char) (width : Nat) : List (List Char) :=
  if width ≤ run.length then (List.range (run.length - width + 1)).map fun i => (run.drop i).take width else []

/-- `_lexical_terms`. -/
def lexicalTerms (L : LexicalTools S) (value : String) : List (List Char) :=
  let normalized := (L.normalize value).toList
  ((characterRuns isCjk normalized).flatMap (fun run => [2, 3, 4].flatMap (piecesOf run)) ++
    (lexicalWords normalized).filter fun word => 2 ≤ word.length).dedup

/-! ## Scores -/

/-- A Chinese term weighs the square of its length, a word 3. -/
def termWeight (term : List Char) : Nat := if term.all isCjk then term.length ^ 2 else 3

/-- `_LEXICAL_QUERY_NOISE`. -/
def isQueryNoise (c : Char) : Bool := isSpace c || c ∈ "?!,:;；，。！？、".toList

def compact (text : String) : List Char := text.toList.filter fun c => !isQueryNoise c

/-- `score_variant`. -/
def scoreVariant [Score S] (L : LexicalTools S) (text variant : String) : S :=
  let normalizedQuery := strip (L.normalize variant)
  let queryTerms := lexicalTerms L normalizedQuery
  let textTerms := lexicalTerms L text
  if normalizedQuery = "" ∨ queryTerms = [] ∨ textTerms = [] then 0
  else
    let total := (queryTerms.map termWeight).sum
    let matched := ((queryTerms.filter (· ∈ textTerms)).map termWeight).sum
    let score := if total = 0 then 0 else L.number matched / L.number total
    let compactQuery := compact normalizedQuery
    let score := if 2 ≤ compactQuery.length ∧ compactQuery <:+: compact (L.normalize text) then
      max score L.phraseScore else score
    min 1 score

/-- Where `str.splitlines` breaks. -/
def isLineBreak (c : Char) : Bool :=
  c ∈ ['\n', '\x0b', '\x0c', '\r', '\x1c', '\x1d', '\x1e', '\x85', '\u2028', '\u2029']

def firstLine (query : String) : String := String.ofList (query.toList.takeWhile fun c => !isLineBreak c)

/-- `_lexical_score`: the first line of the query counts by itself. -/
def lexicalScore [Score S] (L : LexicalTools S) (query text : String) : S :=
  if strip text = "" then 0
  else max (scoreVariant L text query) (scoreVariant L text (firstLine query) * L.firstLineFactor)

end YiQiao
