import YiQiao.Import.Chunks

/-!
# Splitting a chunk

A chunk that could not be stored is split in two near the middle of its core messages, between turns where
they allow it and within a message otherwise. The second half may repeat a short question.
-/

namespace YiQiao

/-! ## Where to split -/

/-- The messages of a chunk that are its own. -/
def coreMessages (chunk : MessageChunk) : List ChatMessage :=
  chunk.messages.filter fun m => m.sourceIndex.any (· ∈ chunk.coreSourceIndices)

def turnLimit (chunk : MessageChunk) : Nat := max 1000 (min 3000 (max 1 (chunk.tokenCount / 2)))

def pieceLimit (chunk : MessageChunk) : Nat := max 500 (chunk.tokenCount / 2)

/-- A turn for every piece of the core messages. -/
def pieceTurns (T : Tokenizer) (chunk : MessageChunk) : List ConversationTurn :=
  ((coreMessages chunk).flatMap (splitLongMessageTokens T (pieceLimit chunk))).map fun piece => turnOf T [piece]

/-- The turns that are divided between the two halves. -/
def splitTurns (T : Tokenizer) (chunk : MessageChunk) : List ConversationTurn :=
  let turns := buildTurns T (coreMessages chunk) (turnLimit chunk)
  if turns.length < 2 then pieceTurns T chunk else turns

/-- The source indices of turns that are core in the chunk. -/
def coreIndices (chunk : MessageChunk) (turns : List ConversationTurn) : List Int :=
  (sourceIndices (turnMessages turns)).filter (· ∈ chunk.coreSourceIndices)

/-- A place to split: whether a question would lose its answer, the sources cut in two, the distance from
the middle (doubled), and the number of turns before it. -/
structure SplitPoint where
  splitsQuestion : Nat
  sharedSources : Nat
  imbalance : Nat
  index : Nat

/-- The order of tuples. -/
def SplitPoint.before (a b : SplitPoint) : Bool :=
  a.splitsQuestion < b.splitsQuestion || a.splitsQuestion = b.splitsQuestion &&
    (a.sharedSources < b.sharedSources || a.sharedSources = b.sharedSources &&
      (a.imbalance < b.imbalance || a.imbalance = b.imbalance && a.index < b.index))

def bestPoint : List SplitPoint → Option SplitPoint
  | [] => none
  | c :: cs => match bestPoint cs with
      | none => some c
      | some best => if best.before c then some best else some c

def lastRole (turns : List ConversationTurn) : String :=
  ((turns.getLast?.bind fun turn => turn.messages.getLast?).map ChatMessage.role).getD ""

def firstRole (turns : List ConversationTurn) : String :=
  ((turns.head?.bind fun turn => turn.messages.head?).map ChatMessage.role).getD ""

def splitPoint (chunk : MessageChunk) (turns : List ConversationTurn) (index : Nat) : Option SplitPoint :=
  let before := coreIndices chunk (turns.take index)
  let after := coreIndices chunk (turns.drop index)
  if before ≠ [] ∧ after ≠ [] then
    some ⟨if lastRole (turns.take index) = "user" ∧ firstRole (turns.drop index) = "assistant" then 1 else 0,
      (before.filter (· ∈ after)).length,
      ((2 * turnTokens (turns.take index) : Int) - turnTokens turns).natAbs, index⟩
  else none

/-- The number of turns in the first half. -/
def splitAt (chunk : MessageChunk) (turns : List ConversationTurn) : Option Nat :=
  (bestPoint ((List.range (turns.length - 1)).filterMap fun k => splitPoint chunk turns (k + 1))).map
    SplitPoint.index

/-! ## The two halves -/

/-- A short question before the second half, if that begins with its answer. -/
def carriedQuestion (T : Tokenizer) (before after : List ConversationTurn) : Option ChatMessage :=
  if firstRole after = "assistant" then
    (turnMessages before).reverse.find? fun m => m.role = "user" ∧ m.sourceIndex.isSome ∧
      ¬ m.sourceIndex.any (fun i => i ∈ sourceIndices (turnMessages after)) ∧ estimateTokens T m.content ≤ 500
  else none

/-- A child of a chunk; none if nothing would be core in it. -/
def splitChild (T : Tokenizer) (chunk : MessageChunk) (parentImportKey : String) (group : List ConversationTurn)
    (overlap : List Int) : Except ChunkError (Option MessageChunk) :=
  let core := (sourceIndices (turnMessages group)).filter fun i => i ∉ overlap ∧ i ∈ chunk.coreSourceIndices
  if group = [] ∨ core = [] then .ok none
  else
    let leading := group.takeWhile fun turn =>
      ¬ turn.messages.any fun m => m.sourceIndex.any (· ∈ core)
    (chunkFromTurns T group leading.length (chunk.splitDepth + 1) (some parentImportKey) (some core)).map some

/-- `split_message_chunk`. -/
def splitMessageChunk (T : Tokenizer) (chunk : MessageChunk) (parentImportKey : String) :
    Except ChunkError (List MessageChunk) := do
  let turns := splitTurns T chunk
  match splitAt chunk turns with
  | none => pure []
  | some index =>
      let before := turns.take index
      let after := turns.drop index
      let question := carriedQuestion T before after
      match ← splitChild T chunk parentImportKey before [] with
      | none => pure []
      | some first =>
          match ← splitChild T chunk parentImportKey ((question.toList.map fun m => turnOf T [m]) ++ after)
            (question.toList.filterMap ChatMessage.sourceIndex) with
          | none => pure []
          | some second => pure [first, second]

end YiQiao
