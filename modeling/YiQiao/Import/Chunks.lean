import YiQiao.Import.Text
import YiQiao.Lib.Fallible
import YiQiao.Lib.Firsts

/-!
# Chunks

The messages of a conversation are cut into turns, and the turns are gathered into chunks near a target
size. A chunk repeats the last turns of the one before it as context.
-/

namespace YiQiao

open Lib Lib.Fallible

/-! ## Messages and turns -/

structure ChatMessage where
  role : String
  content : Text
  createdAt : Option Value
  sourceIndex : Option Int
  partIndex : Nat

structure ConversationTurn where
  messages : List ChatMessage
  tokenCount : Nat

structure MessageChunk where
  messages : List ChatMessage
  tokenCount : Nat
  sourceIndices : List Int
  coreSourceIndices : List Int
  overlapTurns : Nat
  splitDepth : Nat
  parentImportKey : Option String

structure ChunkOptions where
  chunkTargetTokens : Nat
  chunkMaxTokens : Nat
  chunkOverlapTurns : Nat
  chunkGapMinutes : Nat

structure Chunker extends Tokenizer where
  /-- `_strong_turn_boundary`: a gap in time, a change of terms, or a heading. -/
  strongTurnBoundary : ConversationTurn → ConversationTurn → Nat → Bool

/-- A `ValueError`. -/
inductive ChunkError where
  | multipleRoles (sourceIndex : Option Int)
  deriving DecidableEq, Repr

/-- `_ensure_source_indices`. -/
def ensureSourceIndices (messages : List ChatMessage) : List ChatMessage :=
  messages.zipIdx.map fun m => { m.1 with sourceIndex := some (m.1.sourceIndex.getD m.2) }

/-- `split_long_message_tokens`. -/
def splitLongMessageTokens (T : Tokenizer) (maxTokens : Nat) (m : ChatMessage) : List ChatMessage :=
  (splitTextByTokens T m.content maxTokens).zipIdx.map fun part =>
    { m with content := part.1, partIndex := part.2 }

/-- The tokens of a message and of what surrounds it. -/
def messageTokens (T : Tokenizer) (m : ChatMessage) : Nat := estimateTokens T m.content + 6

def turnOf (T : Tokenizer) (messages : List ChatMessage) : ConversationTurn :=
  ⟨messages, (messages.map (messageTokens T)).sum⟩

/-- A turn starts at a user's message: the turn that has begun, and the last user's index in it. -/
def turnsFrom (T : Tokenizer) : List ChatMessage → Option Int → List ChatMessage → List ConversationTurn
  | current, _, [] => if current = [] then [] else [turnOf T current]
  | current, userIndex, m :: rest =>
      let next := if m.role = "user" then m.sourceIndex else userIndex
      if m.role = "user" ∧ current ≠ [] ∧ m.sourceIndex ≠ userIndex then
        turnOf T current :: turnsFrom T [m] next rest
      else turnsFrom T (current ++ [m]) next rest

/-- A turn that is too long is cut between its messages. -/
def boundTurn (T : Tokenizer) (maxTokens : Nat) (turn : ConversationTurn) : List ConversationTurn :=
  if turn.tokenCount ≤ maxTokens then [turn]
  else (pack (messageTokens T) maxTokens turn.messages).map (turnOf T)

/-- `_build_turns`. -/
def buildTurns (T : Tokenizer) (messages : List ChatMessage) (maxTokens : Nat) : List ConversationTurn :=
  (turnsFrom T [] none ((ensureSourceIndices messages).flatMap
    (splitLongMessageTokens T (maxTokens - 16)))).flatMap (boundTurn T maxTokens)

/-! ## Chunks -/

/-- A fragment is joined to the message of its source index, or is a message of its own. -/
def mergeMessage (m : ChatMessage) : List ChatMessage → Except ChunkError (List ChatMessage)
  | [] => .ok [m]
  | existing :: rest =>
      if m.sourceIndex.isSome ∧ existing.sourceIndex = m.sourceIndex then
        if existing.role = m.role then .ok ({ existing with content := existing.content ++ m.content } :: rest)
        else .error (.multipleRoles m.sourceIndex)
      else (mergeMessage m rest).map (existing :: ·)

def mergeMessages (fragments : List ChatMessage) : Except ChunkError (List ChatMessage) :=
  fragments.foldlM (fun messages m => mergeMessage m messages) []

/-- The source indices of messages, each once. -/
def sourceIndices (messages : List ChatMessage) : List Int := firstsBy id (messages.filterMap ChatMessage.sourceIndex)

def turnMessages (turns : List ConversationTurn) : List ChatMessage := turns.flatMap ConversationTurn.messages

/-- `_chunk_from_turns`. -/
def chunkFromTurns (T : Tokenizer) (turns : List ConversationTurn) (leadingOverlap splitDepth : Nat)
    (parentImportKey : Option String) (coreSourceIndices : Option (List Int)) :
    Except ChunkError MessageChunk := do
  let messages ← mergeMessages (turnMessages turns)
  let all := sourceIndices messages
  let core := match coreSourceIndices with
    | none =>
        let core := sourceIndices (turnMessages (turns.drop (min leadingOverlap turns.length)))
        if core = [] then all else core
    | some allowed => all.filter (· ∈ allowed)
  pure ⟨messages, (messages.map (messageTokens T)).sum, all, core, leadingOverlap, splitDepth, parentImportKey⟩

/-- The turns of the next chunk: its overlap with the chunk before, and those that are new. -/
structure Window where
  chunks : List MessageChunk
  current : List ConversationTurn
  leadingOverlap : Nat

def turnTokens (turns : List ConversationTurn) : Nat := (turns.map ConversationTurn.tokenCount).sum

section

variable (C : Chunker) (options : ChunkOptions)

/-- `emit`. -/
def Window.emit (w : Window) : Except ChunkError Window :=
  if w.current = [] ∨ w.current.length ≤ w.leadingOverlap then .ok w
  else do
    let chunk ← chunkFromTurns C.toTokenizer w.current w.leadingOverlap 0 none none
    let overlap := w.current.drop (w.current.length - options.chunkOverlapTurns)
    pure ⟨w.chunks ++ [chunk], overlap, overlap.length⟩

/-- The next turn does not fit. -/
def Window.overflows (w : Window) (turn : ConversationTurn) : Prop :=
  w.current ≠ [] ∧ options.chunkMaxTokens < turnTokens w.current + turn.tokenCount

instance (w : Window) (turn : ConversationTurn) : Decidable (w.overflows options turn) :=
  inferInstanceAs (Decidable (_ ∧ _))

/-- Overlap is given up from the front until the next turn fits. -/
def dropToFit (turn : ConversationTurn) (chunks : List MessageChunk) : List ConversationTurn → Nat → Window
  | [], leadingOverlap => ⟨chunks, [], leadingOverlap⟩
  | first :: rest, leadingOverlap =>
      if options.chunkMaxTokens < turnTokens (first :: rest) + turn.tokenCount then
        dropToFit turn chunks rest (leadingOverlap - 1)
      else ⟨chunks, first :: rest, leadingOverlap⟩

def Window.fit (w : Window) (turn : ConversationTurn) : Window :=
  dropToFit options turn w.chunks w.current w.leadingOverlap

/-- The loop before a turn: a chunk is emitted where there is something new, and from then on there is only
overlap to give up. -/
def Window.makeRoom (w : Window) (turn : ConversationTurn) : Except ChunkError Window :=
  if w.overflows options turn ∧ w.leadingOverlap < w.current.length then do
    let w ← w.emit C options
    pure (w.fit options turn)
  else pure (w.fit options turn)

/-- A long enough chunk ends at a strong boundary. -/
def Window.endTopic (w : Window) (turn : ConversationTurn) : Except ChunkError Window :=
  if w.leadingOverlap < w.current.length ∧ 4000 ≤ turnTokens w.current ∧
      w.current.getLast?.any (fun last => C.strongTurnBoundary last turn options.chunkGapMinutes) = true then do
    let w ← w.emit C options
    pure (w.fit options turn)
  else pure w

def Window.push (w : Window) (turn : ConversationTurn) : Window := { w with current := w.current ++ [turn] }

/-- The body of the loop over the turns. -/
def Window.step (w : Window) (turn : ConversationTurn) : Except ChunkError Window := do
  let w ← w.makeRoom C options turn
  let w ← w.endTopic C options turn
  let w := w.push turn
  if options.chunkTargetTokens ≤ turnTokens w.current ∧ 4000 ≤ turnTokens w.current then w.emit C options
  else pure w

/-- `adaptive_chunk_messages`. -/
def adaptiveChunkMessages (messages : List ChatMessage) : Except ChunkError (List MessageChunk) := do
  let w ← (buildTurns C.toTokenizer messages options.chunkMaxTokens).foldlM
    (fun (w : Window) turn => w.step C options turn) ⟨[], [], 0⟩
  if w.leadingOverlap < w.current.length then do
    let chunk ← chunkFromTurns C.toTokenizer w.current w.leadingOverlap 0 none none
    pure (w.chunks ++ [chunk])
  else pure w.chunks

end

end YiQiao
