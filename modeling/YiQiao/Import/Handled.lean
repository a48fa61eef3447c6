import YiQiao.Import.Settling

/-!
# The chunks that a worker handles

What the hooks do for a worker falls into blocks, one for each chunk: a chunk that ends, a leaf, or one that is split.
Each block is about the row of its key.
-/

namespace YiQiao

open Lib

/-- The import key that a chunk is processed under. -/
def chunkKey (I : Importer) (options : RunOptions) (conversation : Conversation) (chunk : MessageChunk)
    (chunkIndex chunkCount : Nat) (initialPayload : Option ImportPayload) : String :=
  (initialPayload.getD (buildPayload I options.toImportOptions conversation chunk chunkIndex chunkCount)).metadata.importKey

section

variable (I : Importer) (options : RunOptions) (existingKeys supersededKeys : List String)

/-- The trace handles these keys, each with whether its chunk ended or was split: between the blocks of the chunks, the
worker looks for a cancellation or takes a group. -/
inductive Handled : List (String × Bool) → List ServerEvent → Prop where
  | nil : Handled [] []
  | checked {keys : List (String × Bool)} {rest : List ServerEvent} (h : Handled keys rest) :
      Handled keys (⟨.other .cancelled, false⟩ :: rest)
  | took (answer : Option ConversationGroup) {keys : List (String × Bool)} {rest : List ServerEvent} (h : Handled keys rest) :
      Handled keys (⟨.other .nextGroup, answer⟩ :: rest)
  | leaf {conversation : Conversation} {chunk : MessageChunk} {chunkIndex chunkCount : Nat} {payload : Option ImportPayload}
      {own rest : List ServerEvent} {succeeded : Bool} {keys : List (String × Bool)}
      (hown : ((treatChunk I options serverHooks existingKeys supersededKeys conversation chunk chunkIndex chunkCount
        payload).served serve).Run own (.ended succeeded)) (h : Handled keys rest) :
      Handled ((chunkKey I options conversation chunk chunkIndex chunkCount payload, true) :: keys) (own ++ rest)
  | node {conversation : Conversation} {chunk : MessageChunk} {chunkIndex chunkCount : Nat} {payload : Option ImportPayload}
      {own told rest : List ServerEvent} {execution : ChunkAttempt} {children : List MessageChunk} {error : String}
      {keys : List (String × Bool)}
      (hown : ((treatChunk I options serverHooks existingKeys supersededKeys conversation chunk chunkIndex chunkCount
        payload).served serve).Run own (.split execution children error))
      (htold : (serve (.updateChunk execution (.split children.length error))).Run told ()) (h : Handled keys rest) :
      Handled ((chunkKey I options conversation chunk chunkIndex chunkCount payload, false) :: keys)
        (own ++ (told ++ ⟨.other (.increment splitOne), ()⟩ :: rest))

/-- The keys of the chunks that ended. -/
def leafKeys (keys : List (String × Bool)) : List String := (keys.filter fun key => key.2).map Prod.fst

/-- The keys of the chunks that were split. -/
def splitKeys (keys : List (String × Bool)) : List String := (keys.filter fun key => !key.2).map Prod.fst

end

section

variable {keys keys' : List (String × Bool)} {key : String}

theorem mem_leafKeys : key ∈ leafKeys keys ↔ (key, true) ∈ keys := by simp [leafKeys]

theorem mem_splitKeys : key ∈ splitKeys keys ↔ (key, false) ∈ keys := by simp [splitKeys]

@[simp] theorem leafKeys_append : leafKeys (keys ++ keys') = leafKeys keys ++ leafKeys keys' := by simp [leafKeys]

@[simp] theorem splitKeys_append : splitKeys (keys ++ keys') = splitKeys keys ++ splitKeys keys' := by simp [splitKeys]

@[simp] theorem leafKeys_leaf : leafKeys ((key, true) :: keys) = key :: leafKeys keys := rfl

@[simp] theorem splitKeys_leaf : splitKeys ((key, true) :: keys) = splitKeys keys := rfl

@[simp] theorem leafKeys_split : leafKeys ((key, false) :: keys) = leafKeys keys := rfl

@[simp] theorem splitKeys_split : splitKeys ((key, false) :: keys) = key :: splitKeys keys := rfl

end

section

variable {I : Importer} {options : RunOptions} {existingKeys supersededKeys : List String}

theorem Handled.append {keys keys' : List (String × Bool)} {xs ys : List ServerEvent}
    (h : Handled I options existingKeys supersededKeys keys xs) (h' : Handled I options existingKeys supersededKeys keys' ys) :
    Handled I options existingKeys supersededKeys (keys ++ keys') (xs ++ ys) := by
  induction h with
  | nil => exact h'
  | checked _ ih => exact .checked ih
  | took answer _ ih => exact .took answer ih
  | leaf hown _ ih =>
    rw [List.append_assoc]
    exact .leaf hown ih
  | node hown htold _ ih =>
    rw [List.append_assoc, List.append_assoc, List.cons_append]
    exact .node hown htold ih

/-- The trace handles chunks that grew from so many. -/
def HandledFrom (I : Importer) (options : RunOptions) (existingKeys supersededKeys : List String) (roots : Nat)
    (keys : List (String × Bool)) (trace : List ServerEvent) : Prop :=
  Handled I options existingKeys supersededKeys keys trace ∧ (leafKeys keys).length = (splitKeys keys).length + roots

theorem HandledFrom.append {m n : Nat} {keys keys' : List (String × Bool)} {xs ys : List ServerEvent}
    (h : HandledFrom I options existingKeys supersededKeys m keys xs)
    (h' : HandledFrom I options existingKeys supersededKeys n keys' ys) :
    HandledFrom I options existingKeys supersededKeys (m + n) (keys ++ keys') (xs ++ ys) := by
  refine ⟨h.1.append h'.1, ?_⟩
  have hleft := h.2
  have hright := h'.2
  rw [leafKeys_append, splitKeys_append, List.length_append, List.length_append]
  omega

theorem HandledFrom.checked {n : Nat} {keys : List (String × Bool)} {rest : List ServerEvent}
    (h : HandledFrom I options existingKeys supersededKeys n keys rest) :
    HandledFrom I options existingKeys supersededKeys n keys (⟨.other .cancelled, false⟩ :: rest) := ⟨.checked h.1, h.2⟩

theorem handled_leaf {conversation : Conversation} {chunk : MessageChunk} {chunkIndex chunkCount : Nat}
    {payload : Option ImportPayload} {own : List ServerEvent} {succeeded : Bool}
    (hown : ((treatChunk I options serverHooks existingKeys supersededKeys conversation chunk chunkIndex chunkCount
      payload).served serve).Run own (.ended succeeded)) : HandledFrom I options existingKeys supersededKeys 1
        [(chunkKey I options conversation chunk chunkIndex chunkCount payload, true)] own := by
  have h := Handled.leaf hown .nil
  rw [List.append_nil] at h
  exact ⟨h, rfl⟩

theorem handled_node {conversation : Conversation} {chunk : MessageChunk} {chunkIndex chunkCount : Nat}
    {payload : Option ImportPayload} {own told left right : List ServerEvent} {execution : ChunkAttempt}
    {children : List MessageChunk} {error : String} {keys keys' : List (String × Bool)}
    (hown : ((treatChunk I options serverHooks existingKeys supersededKeys conversation chunk chunkIndex chunkCount
      payload).served serve).Run own (.split execution children error))
    (htold : (serve (.updateChunk execution (.split children.length error))).Run told ())
    (hleft : HandledFrom I options existingKeys supersededKeys 1 keys left)
    (hright : HandledFrom I options existingKeys supersededKeys 1 keys' right) :
    HandledFrom I options existingKeys supersededKeys 1
      ((chunkKey I options conversation chunk chunkIndex chunkCount payload, false) :: (keys ++ keys'))
      (own ++ (told ++ ⟨.other (.increment splitOne), ()⟩ :: ⟨.other .cancelled, false⟩ ::
        (left ++ ⟨.other .cancelled, false⟩ :: right))) := by
  obtain ⟨hhandled, hcount⟩ := (hleft.append hright.checked).checked
  refine ⟨.node hown htold hhandled, ?_⟩
  rw [leafKeys_split, splitKeys_split, List.length_cons]
  omega

theorem run_serve_other {request : ImportRequest} {answer : request.Answer} {piece : List ServerEvent}
    (hother : serve request = askServer (.other request)) (h : (serve request).Run piece answer) :
    piece = [⟨.other request, answer⟩] := by
  rw [hother] at h
  exact Program.run_request.mp h

theorem Treated.handled {conversation : Conversation} {tree : SplitTree} {chunkIndex chunkCount : Nat}
    {payload : Option ImportPayload} {events : List ImportEvent} {trace : List ServerEvent}
    (h : Treated I options serverHooks existingKeys supersededKeys conversation tree chunkIndex chunkCount payload events)
    (hserves : Program.Serves serve events trace) :
    ∃ keys, HandledFrom I options existingKeys supersededKeys 1 keys trace := by
  induction h generalizing trace with
  | leaf hown => exact ⟨_, handled_leaf (Program.run_served.mpr ⟨_, hown, hserves⟩)⟩
  | node hown htold _ _ ihleft ihright =>
    obtain ⟨own, afterOwn, rfl, howns, hafterOwn⟩ := Program.serves_append.mp hserves
    obtain ⟨told, afterTold, rfl, htolds, hafterTold⟩ := Program.serves_append.mp hafterOwn
    cases hafterTold with
    | cons hsplit hafterSplit =>
      rw [run_serve_other rfl hsplit]
      cases hafterSplit with
      | cons hchecked hchildren =>
        rw [run_serve_other rfl hchecked]
        obtain ⟨left, afterLeft, rfl, hlefts, hafterLeft⟩ := Program.serves_append.mp hchildren
        cases hafterLeft with
        | cons hchecked hrights =>
          rw [run_serve_other rfl hchecked]
          obtain ⟨keys, hleft⟩ := ihleft hlefts
          obtain ⟨keys', hright⟩ := ihright hrights
          have hupdate := Program.run_served.mpr ⟨_, htold, htolds⟩
          rw [updateHook_server, ask, Program.served_request] at hupdate
          exact ⟨_, handled_node (Program.run_served.mpr ⟨_, hown, howns⟩) hupdate hleft hright⟩

variable {payloads : List (PayloadKey × ImportPayload)}

theorem Woven.handled {forest : List (Place × SplitTree)} {events : List ImportEvent} {trace : List ServerEvent}
    (h : Woven I options serverHooks existingKeys supersededKeys payloads forest events)
    (hserves : Program.Serves serve events trace) :
    ∃ keys, HandledFrom I options existingKeys supersededKeys forest.length keys trace := by
  induction h generalizing trace with
  | nil =>
    cases hserves
    exact ⟨[], .nil, rfl⟩
  | checked _ ih =>
    cases hserves with
    | cons hchecked hrest =>
      rw [run_serve_other rfl hchecked]
      obtain ⟨keys, hkeys⟩ := ih hrest
      exact ⟨keys, hkeys.checked⟩
  | took answer _ ih =>
    cases hserves with
    | cons htook hrest =>
      rw [run_serve_other rfl htook]
      obtain ⟨keys, hkeys⟩ := ih hrest
      exact ⟨keys, .took answer hkeys.1, hkeys.2⟩
  | chunk hchunk htreated _ ih =>
    obtain ⟨piece, rest, rfl, hpiece, hrest⟩ := Program.serves_append.mp hserves
    obtain ⟨keys, hkeys⟩ := htreated.handled hpiece
    obtain ⟨keys', hkeys'⟩ := ih hrest
    refine ⟨keys ++ keys', ?_⟩
    rw [List.length_cons, Nat.add_comm]
    exact hkeys.append hkeys'

end

end YiQiao
