import Mathlib.Algebra.BigOperators.Group.Finset.Piecewise
import YiQiao.Import.Provenance

/-!
# What a split conserves

A chunk is split wherever it has two turns or pieces. The halves divide what the chunk says, and the second
may begin with a question of the first.
-/

namespace YiQiao

open Lib Lib.Fallible

/-! ## Places to split -/

section

variable {T : Tokenizer} {chunk : MessageChunk}

theorem bestPoint_mem {points : List SplitPoint} {best : SplitPoint} (h : bestPoint points = some best) :
    best ∈ points := by
  induction points with
  | nil => cases h
  | cons first rest ih =>
    unfold bestPoint at h
    split at h
    · cases h
      exact List.mem_cons_self
    · rename_i point hpoint
      split at h
      · cases h
        exact List.mem_cons_of_mem _ (ih hpoint)
      · cases h
        exact List.mem_cons_self

theorem bestPoint_ne {points : List SplitPoint} (h : points ≠ []) : ∃ best, bestPoint points = some best := by
  cases points with
  | nil => exact absurd rfl h
  | cons first rest =>
    unfold bestPoint
    split
    · exact ⟨_, rfl⟩
    · split <;> exact ⟨_, rfl⟩

theorem turnsFrom_ne (current : List ChatMessage) (userIndex : Option Int) (messages : List ChatMessage) :
    ∀ turn ∈ turnsFrom T current userIndex messages, turn.messages ≠ [] := by
  induction messages generalizing current userIndex with
  | nil =>
    unfold turnsFrom
    split
    · simp
    · simpa [turnOf]
  | cons m rest ih =>
    unfold turnsFrom
    dsimp only
    split
    · rename_i hstarts
      simp only [List.forall_mem_cons]
      exact ⟨hstarts.2.1, ih _ _⟩
    · exact ih _ _

theorem buildTurns_ne (messages : List ChatMessage) (maxTokens : Nat) :
    ∀ turn ∈ buildTurns T messages maxTokens, turn.messages ≠ [] := by
  intro turn hturn
  obtain ⟨whole, hwhole, hturn⟩ := List.mem_flatMap.mp hturn
  unfold boundTurn at hturn
  split at hturn
  · rw [List.mem_singleton.mp hturn]
    exact turnsFrom_ne _ _ _ whole hwhole
  · obtain ⟨batch, hbatch, rfl⟩ := List.mem_map.mp hturn
    exact pack_ne hbatch

theorem splitTurns_ne : ∀ turn ∈ splitTurns T chunk, turn.messages ≠ [] := by
  unfold splitTurns
  dsimp only
  split
  · intro turn hturn
    obtain ⟨piece, -, rfl⟩ := List.mem_map.mp hturn
    simp [turnOf]
  · exact buildTurns_ne _ _

theorem splitTurns_core {m : ChatMessage} (hm : m ∈ turnMessages (splitTurns T chunk)) :
    ∃ i, m.sourceIndex = some i ∧ i ∈ chunk.coreSourceIndices := by
  have hpieces := splitTurns_messages T chunk
  rw [hpieces] at hm
  obtain ⟨source, hsource, hm⟩ := List.mem_flatMap.mp hm
  obtain ⟨i, hi, hcore⟩ := (Option.any_eq_true _ _).mp (List.mem_filter.mp hsource).2
  exact ⟨i, (splitLongMessageTokens_like hm).1.trans hi, of_decide_eq_true hcore⟩

/-- Any of the turns that are divided has something that is core. -/
theorem coreIndices_ne {turns : List ConversationTurn} (hsub : turns ⊆ splitTurns T chunk) (hne : turns ≠ []) :
    coreIndices chunk turns ≠ [] := by
  obtain ⟨turn, hturn⟩ := List.exists_mem_of_ne_nil _ hne
  obtain ⟨m, hm⟩ := List.exists_mem_of_ne_nil _ (splitTurns_ne turn (hsub hturn))
  have hin : m ∈ turnMessages turns := List.mem_flatMap.mpr ⟨turn, hturn, hm⟩
  obtain ⟨i, hi, hcore⟩ := splitTurns_core (turnMessages_subset hsub hin)
  apply List.ne_nil_of_mem (a := i)
  simp only [coreIndices, List.mem_filter, mem_sourceIndices, decide_eq_true_eq]
  exact ⟨⟨m, hin, hi⟩, hcore⟩

theorem splitAt_spec {turns : List ConversationTurn} {index : Nat} (h : splitAt chunk turns = some index) :
    (0 < index ∧ index < turns.length) ∧
      coreIndices chunk (turns.take index) ≠ [] ∧ coreIndices chunk (turns.drop index) ≠ [] := by
  obtain ⟨best, hbest, rfl⟩ := Option.map_eq_some_iff.mp h
  obtain ⟨k, hk, hpoint⟩ := List.mem_filterMap.mp (bestPoint_mem hbest)
  rw [List.mem_range] at hk
  unfold splitPoint at hpoint
  dsimp only at hpoint
  split at hpoint
  · rename_i hsides
    cases hpoint
    exact ⟨⟨Nat.succ_pos k, by dsimp only; omega⟩, hsides⟩
  · cases hpoint

theorem splitAt_splitTurns (h : 2 ≤ (splitTurns T chunk).length) :
    ∃ index, splitAt chunk (splitTurns T chunk) = some index := by
  have hfirst : ∃ point, splitPoint chunk (splitTurns T chunk) 1 = some point := by
    unfold splitPoint
    dsimp only
    rw [if_pos]
    · exact ⟨_, rfl⟩
    · constructor
      · apply coreIndices_ne (List.take_subset _ _)
        rw [← List.length_pos_iff, List.length_take]
        omega
      · apply coreIndices_ne (List.drop_subset _ _)
        rw [← List.length_pos_iff, List.length_drop]
        omega
  obtain ⟨point, hpoint⟩ := hfirst
  have hmem : point ∈ (List.range ((splitTurns T chunk).length - 1)).filterMap
      fun k => splitPoint chunk (splitTurns T chunk) (k + 1) := by
    rw [List.mem_filterMap]
    exact ⟨0, List.mem_range.mpr (by omega), hpoint⟩
  obtain ⟨best, hbest⟩ := bestPoint_ne (List.ne_nil_of_mem hmem)
  exact ⟨best.index, by rw [splitAt, hbest]; rfl⟩

/-! ## A child is made -/

theorem Unrepeated.agree {messages : List ChatMessage} (h : Unrepeated messages)
    (hindexed : ∀ m ∈ messages, m.sourceIndex.isSome) : Agree messages := by
  induction messages with
  | nil => intro m hm; cases hm
  | cons first rest ih =>
    obtain ⟨hfirst, hrest⟩ := List.pairwise_cons.mp h
    simp only [List.forall_mem_cons] at hindexed
    intro m hm m' hm' hsame
    rcases List.mem_cons.mp hm with rfl | hin
    · rcases List.mem_cons.mp hm' with rfl | hin'
      · rfl
      · exact absurd hsame (hfirst m' hin' hindexed.1)
    · rcases List.mem_cons.mp hm' with rfl | hin'
      · exact absurd hsame.symm (hfirst m hin hindexed.1)
      · exact ih hrest hindexed.2 m hin m' hin' hsame

theorem splitTurns_agree (hformed : chunk.Formed) : Agree (turnMessages (splitTurns T chunk)) := by
  rw [splitTurns_messages]
  apply Agree.pieces
  exact (hformed.unrepeated.agree hformed.indexed).mono List.filter_sublist.subset

/-- Turns with something of their own make a child. -/
theorem splitChild_some {key : String} {group : List ConversationTurn} {overlap : List Int}
    (hagree : Agree (turnMessages group)) {i : Int} (hi : i ∈ sourceIndices (turnMessages group))
    (hoverlap : i ∉ overlap) (hcore : i ∈ chunk.coreSourceIndices) :
    ∃ child, splitChild T chunk key group overlap = .ok (some child) := by
  unfold splitChild
  dsimp only
  have hown : i ∈ (sourceIndices (turnMessages group)).filter fun i => i ∉ overlap ∧ i ∈ chunk.coreSourceIndices := by
    simp [hi, hoverlap, hcore]
  have hgroup : group ≠ [] := by
    intro hnil
    rw [hnil, mem_sourceIndices] at hi
    obtain ⟨m, hm, -⟩ := hi
    cases hm
  rw [if_neg (not_or.mpr ⟨hgroup, List.ne_nil_of_mem hown⟩)]
  obtain ⟨child, hchild⟩ := chunkFromTurns_ok (T := T) hagree _ (chunk.splitDepth + 1) (some key) _
  exact ⟨child, by rw [hchild]; rfl⟩

theorem splitTurns_length : (splitTurns T chunk).length < 2 ↔
    (buildTurns T (coreMessages chunk) (turnLimit chunk)).length < 2 ∧ (pieceTurns T chunk).length < 2 := by
  unfold splitTurns
  dsimp only
  split
  · rename_i hfew
    simp [hfew]
  · rename_i hmany
    simp [hmany]

/-- Nothing of the question's turn or behind the cut is from elsewhere. -/
theorem carriedTurns_subset (index : Nat) {question : Option ChatMessage}
    (hquestion : question = carriedQuestion T ((splitTurns T chunk).take index) ((splitTurns T chunk).drop index)) :
    turnMessages ((question.toList.map fun m => turnOf T [m]) ++ (splitTurns T chunk).drop index) ⊆
      turnMessages (splitTurns T chunk) := by
  intro m hm
  rcases mem_carriedTurns.mp hm with hq | hm
  · exact turnMessages_subset (List.take_subset _ _) (carriedQuestion_mem (hquestion.symm.trans hq))
  · exact turnMessages_subset (List.drop_subset _ _) hm

/-- A chunk as it is made is split in two, or has no two turns or pieces. -/
theorem splitMessageChunk_total (hformed : chunk.Formed) (key : String) : ∃ children,
    splitMessageChunk T chunk key = .ok children ∧ (children = [] ↔ (splitTurns T chunk).length < 2) := by
  unfold splitMessageChunk
  dsimp only
  by_cases hlength : (splitTurns T chunk).length < 2
  · have hnone : splitAt chunk (splitTurns T chunk) = none := by
      by_contra hsome
      obtain ⟨index, hindex⟩ := Option.ne_none_iff_exists'.mp hsome
      have hlt := (splitAt_spec hindex).1
      omega
    rw [hnone]
    exact ⟨[], rfl, by simp [hlength]⟩
  · obtain ⟨index, hindex⟩ := splitAt_splitTurns (not_lt.mp hlength)
    obtain ⟨-, hbefore, hafter⟩ := splitAt_spec hindex
    obtain ⟨i, hi⟩ := List.exists_mem_of_ne_nil _ hbefore
    obtain ⟨j, hj⟩ := List.exists_mem_of_ne_nil _ hafter
    simp only [coreIndices, List.mem_filter, decide_eq_true_eq] at hi hj
    have hagree := splitTurns_agree (T := T) hformed
    obtain ⟨first, hfirst⟩ : ∃ first,
        splitChild T chunk key ((splitTurns T chunk).take index) [] = .ok (some first) :=
      splitChild_some (hagree.mono (turnMessages_subset (List.take_subset _ _))) hi.1 (by simp) hi.2
    set question := carriedQuestion T ((splitTurns T chunk).take index) ((splitTurns T chunk).drop index)
      with hquestion
    obtain ⟨second, hsecond⟩ : ∃ second,
        splitChild T chunk key ((question.toList.map fun m => turnOf T [m]) ++ (splitTurns T chunk).drop index)
          (question.toList.filterMap ChatMessage.sourceIndex) = .ok (some second) := by
      apply splitChild_some (hagree.mono (carriedTurns_subset index hquestion)) (i := j)
      · obtain ⟨m, hm, hmj⟩ := mem_sourceIndices.mp hj.1
        exact mem_sourceIndices.mpr ⟨m, mem_carriedTurns.mpr (.inr hm), hmj⟩
      · intro hoverlap
        obtain ⟨q, hq, hqj⟩ := List.mem_filterMap.mp hoverlap
        exact carriedQuestion_apart (Option.mem_toList.mp hq) hqj hj.1
      · exact hj.2
    refine ⟨[first, second], ?_, by simp [hlength]⟩
    simp only [hindex, hfirst, ← hquestion, hsecond]
    rfl

/-! ## What is in a child -/

/-- A child has nothing that is not its own. -/
structure MessageChunk.OwnOnly (child : MessageChunk) : Prop where
  messages : coreMessages child = child.messages
  overlap : child.overlapTurns = 0

/-- The second child begins with a question of the first: a user's message of the chunk, or a short piece of
one that is cut. -/
structure CarriesQuestion (T : Tokenizer) (chunk first second : MessageChunk) (q : ChatMessage) : Prop where
  messages : second.messages = q :: coreMessages second
  overlap : second.overlapTurns = 1
  role : q.role = "user"
  short : estimateTokens T q.content ≤ 500
  earlier : ∃ i, q.sourceIndex = some i ∧ i ∈ first.coreSourceIndices ∧ i ∉ second.coreSourceIndices
  piece : ∃ m ∈ coreMessages chunk, q ∈ splitLongMessageTokens T (splitLimit T chunk) m ∧
    ((splitLongMessageTokens T (splitLimit T chunk) m).length = 1 → q.content = m.content)

theorem splitChild_made {child : MessageChunk} {key : String} {group : List ConversationTurn} {overlap : List Int}
    (h : splitChild T chunk key group overlap = .ok (some child)) :
    mergeMessages (turnMessages group) = .ok child.messages ∧ child.overlapTurns =
      (group.takeWhile fun turn =>
        ¬ turn.messages.any fun m => m.sourceIndex.any (· ∈ child.coreSourceIndices)).length := by
  unfold splitChild at h
  dsimp only at h
  split at h
  · cases h
  · obtain ⟨made, hmade, hsome⟩ := Fallible.map_ok.mp h
    cases hsome
    rw [chunkFromTurns] at hmade
    simp only [bind_ok, pure_ok] at hmade
    obtain ⟨merged, hmerged, rfl⟩ := hmade
    refine ⟨hmerged, ?_⟩
    have hcore : ∀ i, (i ∈ (sourceIndices merged).filter fun j => decide (j ∈
        (sourceIndices (turnMessages group)).filter fun i => decide (i ∉ overlap ∧ i ∈ chunk.coreSourceIndices))) ↔
        i ∈ (sourceIndices (turnMessages group)).filter fun i =>
          decide (i ∉ overlap ∧ i ∈ chunk.coreSourceIndices) := by
      intro i
      simp only [List.mem_filter, mem_sourceIndices_merged hmerged, decide_eq_true_eq]
      tauto
    simp only [hcore]

/-- A message of a source index of its own stands before what the others merge into. -/
theorem mergeMessages_cons {q : ChatMessage} {fragments merged : List ChatMessage}
    (hq : ∀ m ∈ fragments, m.sourceIndex ≠ q.sourceIndex) (h : mergeMessages (q :: fragments) = .ok merged) :
    ∃ rest, mergeMessages fragments = .ok rest ∧ merged = q :: rest := by
  have hgeneral : ∀ (messages : List ChatMessage), fragments.foldlM (fun messages m => mergeMessage m messages)
      (q :: messages) = (fragments.foldlM (fun messages m => mergeMessage m messages) messages).map (q :: ·) := by
    clear h
    induction fragments with
    | nil => intro messages; rfl
    | cons m fragments ih =>
      intro messages
      simp only [List.forall_mem_cons] at hq
      have hskip : mergeMessage m (q :: messages) = (mergeMessage m messages).map (q :: ·) := by
        rw [mergeMessage, if_neg fun hsame => hq.1 hsame.2.symm]
      rw [List.foldlM_cons, List.foldlM_cons, hskip]
      cases mergeMessage m messages with
      | error err => rfl
      | ok merged => exact ih hq.2 merged
  rw [mergeMessages, List.foldlM_cons] at h
  have hstart := (hgeneral []).symm.trans h
  obtain ⟨rest, hrest, rfl⟩ := Fallible.map_ok.mp hstart
  exact ⟨rest, hrest, rfl⟩

theorem ChildOf.mem_core {child : MessageChunk} {group : List ConversationTurn} {overlap : List Int}
    (h : ChildOf chunk child group overlap) {m : ChatMessage} (hm : m ∈ turnMessages group)
    (hsub : turnMessages group ⊆ turnMessages (splitTurns T chunk)) :
    m.sourceIndex.any (· ∈ child.coreSourceIndices) = true ↔ ∀ i ∈ overlap, m.sourceIndex ≠ some i := by
  obtain ⟨i, hi, hcore⟩ := splitTurns_core (hsub hm)
  have hin : i ∈ sourceIndices (turnMessages group) := mem_sourceIndices.mpr ⟨m, hm, hi⟩
  simp only [hi, Option.any_some, decide_eq_true_eq, h.core, hin, hcore, true_and, and_true]
  constructor
  · intro hnot j hj hij
    cases hij
    exact hnot hj
  · exact fun hnot hmem => hnot i hmem rfl

/-- A child that repeats nothing has nothing but its own. -/
theorem splitChild_ownOnly {child : MessageChunk} {key : String} {group : List ConversationTurn}
    (hsub : group ⊆ splitTurns T chunk) (h : splitChild T chunk key group [] = .ok (some child)) :
    child.OwnOnly := by
  have hmessages := turnMessages_subset hsub
  have hchild := splitChild_ok (fun m hm => splitTurns_indexed (hmessages hm)) h
  obtain ⟨hmerged, hoverlap⟩ := splitChild_made h
  constructor
  · apply List.filter_eq_self.mpr
    intro e he
    obtain ⟨m, hm, hlike⟩ := mergeMessages_mem hmerged he
    rw [hlike.1]
    exact (hchild.mem_core hm hmessages).mpr (by simp)
  · rw [hoverlap]
    cases group with
    | nil => rfl
    | cons turn rest =>
      obtain ⟨m, hm⟩ := List.exists_mem_of_ne_nil _ (splitTurns_ne turn (hsub List.mem_cons_self))
      have hown : turn.messages.any (fun m => m.sourceIndex.any (· ∈ child.coreSourceIndices)) = true := by
        rw [List.any_eq_true]
        refine ⟨m, hm, (hchild.mem_core ?_ hmessages).mpr (by simp)⟩
        exact List.mem_flatMap.mpr ⟨turn, List.mem_cons_self, hm⟩
      rw [List.takeWhile_cons_of_neg (by simp [hown])]
      rfl

/-- The one piece of a message that is not cut is the message. -/
theorem splitLongMessageTokens_single {maxTokens : Nat} {m q : ChatMessage}
    (hlength : (splitLongMessageTokens T maxTokens m).length = 1) (hq : q ∈ splitLongMessageTokens T maxTokens m) :
    q.content = m.content := by
  obtain ⟨part, hpart, rfl⟩ := List.mem_map.mp hq
  have hin := List.fst_mem_of_mem_zipIdx hpart
  rw [splitLongMessageTokens, List.length_map, List.length_zipIdx] at hlength
  obtain ⟨text, htext⟩ := List.length_eq_one_iff.mp hlength
  rw [htext] at hin
  rw [← splitTextByTokens_text (T := T) m.content maxTokens, htext, List.flatten_singleton]
  exact List.mem_singleton.mp hin

theorem carriedQuestion_spec {before after : List ConversationTurn} {q : ChatMessage}
    (h : carriedQuestion T before after = some q) :
    q.role = "user" ∧ q.sourceIndex.isSome ∧ estimateTokens T q.content ≤ 500 := by
  unfold carriedQuestion at h
  split at h
  · have hfound := List.find?_some h
    simp only [decide_eq_true_eq] at hfound
    exact ⟨hfound.1, hfound.2.1, hfound.2.2.2⟩
  · cases h

/-- A question stands before what is the second child's own. -/
theorem splitChild_carries {first second : MessageChunk} {key : String} {index : Nat} {q : ChatMessage} {i : Int}
    (hindex : index < (splitTurns T chunk).length)
    (hq : carriedQuestion T ((splitTurns T chunk).take index) ((splitTurns T chunk).drop index) = some q)
    (hi : q.sourceIndex = some i)
    (hfirst : splitChild T chunk key ((splitTurns T chunk).take index) [] = .ok (some first))
    (hsecond : splitChild T chunk key (turnOf T [q] :: (splitTurns T chunk).drop index) [i] = .ok (some second)) :
    CarriesQuestion T chunk first second q := by
  obtain ⟨hrole, -, hshort⟩ := carriedQuestion_spec hq
  set after := (splitTurns T chunk).drop index with hafter
  have hmessages : turnMessages (turnOf T [q] :: after) = q :: turnMessages after := by
    simp [turnMessages, turnOf]
  have hbefore := carriedQuestion_mem hq
  have hmem : q ∈ turnMessages (splitTurns T chunk) := turnMessages_subset (List.take_subset _ _) hbefore
  have hsub : turnMessages (turnOf T [q] :: after) ⊆ turnMessages (splitTurns T chunk) := by
    rw [hmessages]
    exact List.cons_subset.mpr ⟨hmem, turnMessages_subset (List.drop_subset _ _)⟩
  have hchild := splitChild_ok (fun m hm => splitTurns_indexed (hsub hm)) hsecond
  have hapart : ∀ m ∈ turnMessages after, m.sourceIndex ≠ some i := by
    intro m hm heq
    exact carriedQuestion_apart hq hi (mem_sourceIndices.mpr ⟨m, hm, heq⟩)
  have hown : ∀ m ∈ turnMessages after, m.sourceIndex.any (· ∈ second.coreSourceIndices) = true := by
    intro m hm
    apply (hchild.mem_core _ hsub).mpr
    · simpa using hapart m hm
    · rw [hmessages]
      exact List.mem_cons_of_mem _ hm
  have hnot : i ∉ second.coreSourceIndices := by simp [hchild.core]
  obtain ⟨hmerged, hoverlap⟩ := splitChild_made hsecond
  rw [hmessages] at hmerged
  obtain ⟨rest, hrest, hsecondMessages⟩ := mergeMessages_cons (fun m hm => by rw [hi]; exact hapart m hm) hmerged
  have hcore : coreMessages second = rest := by
    rw [coreMessages, hsecondMessages, List.filter_cons_of_neg (by simp [hi, hnot]), List.filter_eq_self]
    intro e he
    obtain ⟨m, hm, hlike⟩ := mergeMessages_mem hrest he
    rw [hlike.1]
    exact hown m hm
  constructor
  · rw [hcore, hsecondMessages]
  · obtain ⟨turn, turns, hturns⟩ := List.exists_cons_of_ne_nil
      (List.length_pos_iff.mp (by rw [hafter, List.length_drop]; omega) : after ≠ [])
    have hturn : turn ∈ after := by simp [hturns]
    obtain ⟨m, hm⟩ := List.exists_mem_of_ne_nil _ (splitTurns_ne turn (List.drop_subset _ _ hturn))
    have hstops : turn.messages.any (fun m => m.sourceIndex.any (· ∈ second.coreSourceIndices)) = true := by
      rw [List.any_eq_true]
      exact ⟨m, hm, hown m (List.mem_flatMap.mpr ⟨turn, hturn, hm⟩)⟩
    rw [hoverlap, hturns, List.takeWhile_cons_of_pos (by simp [turnOf, hi, hnot]),
      List.takeWhile_cons_of_neg (by simp [hstops])]
    rfl
  · exact hrole
  · exact hshort
  · obtain ⟨j, hj, hcorej⟩ := splitTurns_core hmem
    have hij : j = i := Option.some.inj (hj.symm.trans hi)
    have hchild₁ := splitChild_ok (fun m hm => splitTurns_indexed (turnMessages_subset (List.take_subset _ _) hm))
      hfirst
    refine ⟨i, hi, (hchild₁.core i).mpr ⟨mem_sourceIndices.mpr ⟨q, hbefore, hi⟩, by simp, ?_⟩, hnot⟩
    rwa [← hij]
  · rw [splitTurns_messages] at hmem
    obtain ⟨m, hm, hpiece⟩ := List.mem_flatMap.mp hmem
    exact ⟨m, hm, hpiece, fun hsingle => splitLongMessageTokens_single hsingle hpiece⟩

/-! ## How much a child says -/

/-- The text of the messages that are a chunk's own. -/
def MessageChunk.coreText (chunk : MessageChunk) : Text := (coreMessages chunk).flatMap ChatMessage.content

theorem contentOf_single_length (i : Int) (m : ChatMessage) :
    (contentOf i [m]).length = if m.sourceIndex = some i then m.content.length else 0 := by
  by_cases hi : m.sourceIndex = some i
  · simp [contentOf, hi]
  · simp [contentOf, hi]

theorem coreText_length (chunk : MessageChunk) :
    chunk.coreText.length = ∑ i ∈ chunk.coreSourceIndices.toFinset, (chunk.ownContent i).length := by
  have hgeneral : ∀ messages : List ChatMessage,
      ((messages.filter fun m => m.sourceIndex.any (· ∈ chunk.coreSourceIndices)).flatMap
        ChatMessage.content).length = ∑ i ∈ chunk.coreSourceIndices.toFinset, (contentOf i messages).length := by
    intro messages
    induction messages with
    | nil => simp [contentOf]
    | cons m rest ih =>
      simp only [contentOf_cons _ m rest, List.length_append, Finset.sum_add_distrib, ← ih,
        contentOf_single_length]
      cases hm : m.sourceIndex with
      | none => simp [hm]
      | some j =>
        simp only [Option.some.injEq, Finset.sum_ite_eq, List.mem_toFinset]
        by_cases hj : j ∈ chunk.coreSourceIndices <;> simp [hm, hj]
  rw [MessageChunk.coreText, coreMessages, hgeneral]
  refine Finset.sum_congr rfl fun i hi => ?_
  rw [MessageChunk.ownContent, if_pos (List.mem_toFinset.mp hi)]

theorem coreText_add {first second : MessageChunk}
    (hown : ∀ i, chunk.ownContent i = first.ownContent i ++ second.ownContent i)
    (hfirst : ∀ i ∈ first.coreSourceIndices, i ∈ chunk.coreSourceIndices)
    (hsecond : ∀ i ∈ second.coreSourceIndices, i ∈ chunk.coreSourceIndices) :
    chunk.coreText.length = first.coreText.length + second.coreText.length := by
  have hwiden : ∀ child : MessageChunk, (∀ i ∈ child.coreSourceIndices, i ∈ chunk.coreSourceIndices) →
      child.coreText.length = ∑ i ∈ chunk.coreSourceIndices.toFinset, (child.ownContent i).length := by
    intro child hchild
    rw [coreText_length]
    apply Finset.sum_subset
    · intro i hi
      simpa using hchild i (by simpa using hi)
    · intro i _ hi
      rw [List.mem_toFinset] at hi
      simp [MessageChunk.ownContent, hi]
  simp only [coreText_length chunk, hwiden first hfirst, hwiden second hsecond, hown, List.length_append,
    Finset.sum_add_distrib]

/-- A child says something, unless a message of its chunk is empty. -/
theorem ChildOf.coreText_pos {child : MessageChunk} {group : List ConversationTurn} {overlap : List Int}
    (h : ChildOf chunk child group overlap) (hsub : turnMessages group ⊆ turnMessages (splitTurns T chunk))
    (hsolid : ∀ m ∈ coreMessages chunk, m.content ≠ []) : 0 < child.coreText.length := by
  obtain ⟨i, hi⟩ := List.exists_mem_of_ne_nil _ h.core_ne
  obtain ⟨piece, hpiece, hindex⟩ := mem_sourceIndices.mp ((h.core i).mp hi).1
  have hfragment := hsub hpiece
  rw [splitTurns_messages] at hfragment
  obtain ⟨m, hm, hcut⟩ := List.mem_flatMap.mp hfragment
  obtain ⟨part, hpart, rfl⟩ := List.mem_map.mp hcut
  have hsays := splitTextByTokens_ne _ (hsolid m hm) part.1 (List.fst_mem_of_mem_zipIdx hpart)
  have hown : child.ownContent i ≠ [] := by
    rw [MessageChunk.ownContent, if_pos hi, h.content]
    intro hnil
    exact hsays (List.flatMap_eq_nil_iff.mp hnil _ (List.mem_filter.mpr ⟨hpiece, decide_eq_true hindex⟩))
  rw [coreText_length]
  exact Finset.sum_pos' (fun _ _ => Nat.zero_le _) ⟨i, List.mem_toFinset.mpr hi, List.length_pos_iff.mpr hown⟩

/-- A child says a part of what its chunk says. -/
structure PartOf (child chunk : MessageChunk) : Prop where
  core_ne : child.coreSourceIndices ≠ []
  core : ∀ i ∈ child.coreSourceIndices, i ∈ chunk.coreSourceIndices
  weight : child.weight < chunk.weight
  shorter : (∀ m ∈ coreMessages chunk, m.content ≠ []) → child.coreText.length < chunk.coreText.length

theorem splitMessageChunk_partOf (hformed : chunk.Formed) {key : String} {children : List MessageChunk}
    (h : splitMessageChunk T chunk key = .ok children) (hne : children ≠ []) :
    ∃ first second, children = [first, second] ∧ Halves chunk first second ∧ PartOf first chunk ∧
      PartOf second chunk ∧ first.OwnOnly ∧ (second.OwnOnly ∨ ∃ q, CarriesQuestion T chunk first second q) := by
  obtain ⟨first, second, hchildren, halves⟩ := splitMessageChunk_halves hformed h hne
  obtain ⟨index, first', second', hindex, hfirst, hsecond, hchildren'⟩ := splitMessageChunk_ok h hne
  rw [hchildren] at hchildren'
  cases hchildren'
  set question := carriedQuestion T ((splitTurns T chunk).take index) ((splitTurns T chunk).drop index)
    with hquestion
  have hsub₁ : turnMessages ((splitTurns T chunk).take index) ⊆ turnMessages (splitTurns T chunk) :=
    turnMessages_subset (List.take_subset _ _)
  have hsub₂ := carriedTurns_subset index hquestion
  have hchild₁ := splitChild_ok (fun m hm => splitTurns_indexed (hsub₁ hm)) hfirst
  have hchild₂ := splitChild_ok (fun m hm => splitTurns_indexed (hsub₂ hm)) hsecond
  have hcore₁ := fun i hi => ((hchild₁.core i).mp hi).2.2
  have hcore₂ := fun i hi => ((hchild₂.core i).mp hi).2.2
  have hadd := coreText_add halves.own hcore₁ hcore₂
  refine ⟨first, second, hchildren, halves, ⟨hchild₁.core_ne, hcore₁, halves.weight_first, fun hsolid => ?_⟩,
    ⟨hchild₂.core_ne, hcore₂, halves.weight_second, fun hsolid => ?_⟩,
    splitChild_ownOnly (List.take_subset _ _) hfirst, ?_⟩
  · have hpos := hchild₂.coreText_pos hsub₂ hsolid
    omega
  · have hpos := hchild₁.coreText_pos hsub₁ hsolid
    omega
  · cases hq : question with
    | none =>
      rw [hq] at hsecond
      exact .inl (splitChild_ownOnly (List.drop_subset _ _) hsecond)
    | some q =>
      obtain ⟨i, hi⟩ := Option.isSome_iff_exists.mp (carriedQuestion_spec hq).2.1
      rw [hq] at hsecond
      simp only [Option.toList_some, List.map_cons, List.map_nil, List.filterMap_cons, hi, List.filterMap_nil,
        List.singleton_append] at hsecond
      exact .inr ⟨q, splitChild_carries (splitAt_spec hindex).1.2 hq hi hfirst hsecond⟩

end

/-- A chunk is split wherever it has two turns or pieces, and then in two: each half says a part of what the
chunk says, and what is not its own is one question. -/
theorem splitMessageChunk_conserves (I : Importer) (options : ImportOptions) (conversation : Conversation)
    (chunk : MessageChunk) (hformed : chunk.Formed) (key : String) : ∃ children,
    splitMessageChunk I.toTokenizer chunk key = .ok children ∧
    (children = [] ↔ (buildTurns I.toTokenizer (coreMessages chunk) (turnLimit chunk)).length < 2 ∧
      (pieceTurns I.toTokenizer chunk).length < 2) ∧
    (children ≠ [] → ∃ first second, children = [first, second] ∧
      (∀ i, chunk.ownContent i = first.ownContent i ++ second.ownContent i) ∧
      PartOf first chunk ∧ PartOf second chunk ∧
      (∀ child ∈ children,
        Set.InjOn I.importKey {keyMaterial options conversation chunk, keyMaterial options conversation child} →
          messageChunkImportKey I options conversation child ≠ messageChunkImportKey I options conversation chunk) ∧
      first.OwnOnly ∧ (second.OwnOnly ∨ ∃ q, CarriesQuestion I.toTokenizer chunk first second q)) := by
  obtain ⟨children, hchildren, hnone⟩ := splitMessageChunk_total (T := I.toTokenizer) hformed key
  refine ⟨children, hchildren, hnone.trans splitTurns_length, fun hne => ?_⟩
  obtain ⟨first, second, rfl, halves, hfirst, hsecond, hown, hcarries⟩ :=
    splitMessageChunk_partOf hformed hchildren hne
  refine ⟨first, second, rfl, halves.own, hfirst, hsecond, ?_, hown, hcarries⟩
  have happart : ∀ child : MessageChunk, child.Formed → child.weight < chunk.weight →
      Set.InjOn I.importKey {keyMaterial options conversation chunk, keyMaterial options conversation child} →
        messageChunkImportKey I options conversation child ≠ messageChunkImportKey I options conversation chunk := by
    intro child hchild hlt hinj hkey
    have hsame := hinj (by simp) (by simp) hkey
    rw [weight_of_keyMaterial hchild hformed hsame] at hlt
    exact lt_irrefl _ hlt
  simp only [List.forall_mem_cons]
  exact ⟨happart first halves.formed_first halves.weight_first,
    happart second halves.formed_second halves.weight_second, by simp⟩

/-! ## A question and its answer -/

theorem formed_answered : answeredChunk.Formed := by
  constructor
  · simp [Unrepeated, answeredChunk, ensureSourceIndices, greeting]
  · simp [answeredChunk, ensureSourceIndices, greeting]

/-- The question is repeated before its answer. -/
theorem splitMessageChunk_conserves_answered : ∃ first second q, answerHalves = [first, second] ∧
    PartOf first answeredChunk ∧ PartOf second answeredChunk ∧
    (∀ child ∈ answerHalves, messageChunkImportKey namedImporter plainOptions answered child ≠
      messageChunkImportKey namedImporter plainOptions answered answeredChunk) ∧
    first.OwnOnly ∧ CarriesQuestion namedImporter.toTokenizer answeredChunk first second q := by
  obtain ⟨children, hchildren, -, hsplit⟩ :=
    splitMessageChunk_conserves namedImporter plainOptions answered answeredChunk formed_answered "Talk"
  have hhalves : splitMessageChunk namedImporter.toTokenizer answeredChunk "Talk" = .ok answerHalves := by rfl
  rw [hhalves] at hchildren
  cases hchildren
  obtain ⟨first, second, hpair, -, hfirst, hsecond, hkeys, hown, hcarries⟩ := hsplit (by simp [answerHalves])
  have hkeyed : ∀ child ∈ answerHalves, namedImporter.importKey (keyMaterial plainOptions answered answeredChunk) ≠
      namedImporter.importKey (keyMaterial plainOptions answered child) := by
    decide +kernel
  cases hpair
  rcases hcarries with hown' | ⟨q, hq⟩
  · cases hown'.overlap
  · refine ⟨_, _, q, rfl, hfirst, hsecond, fun child hchild => hkeys child hchild ?_, hown, hq⟩
    exact Set.injOn_pair.mpr fun heq => absurd heq (hkeyed child hchild)

/-! ## A question that is cut, and an empty one -/

/-- A question of two paragraphs that are longer together than a piece may be. -/
def longQuestion : List ChatMessage :=
  [⟨"user", List.replicate 500 '中' ++ ['\n', '\n'] ++ List.replicate 486 '中', none, none, 0⟩,
    ⟨"assistant", ['好'], none, none, 0⟩]

def emptyQuestion : List ChatMessage := [⟨"user", [], none, none, 0⟩, ⟨"assistant", ['好'], none, none, 0⟩]

/-- A source index of two roles, which no chunk that is made has. -/
def clashChunk : MessageChunk :=
  ⟨[⟨"user", ['h', 'i'], none, some 0, 0⟩, ⟨"assistant", ['y', 'o'], none, some 0, 0⟩,
    ⟨"user", ['o', 'k'], none, some 1, 0⟩], 21, [0, 1], [0, 1], 0, 0, none⟩

/-- What is repeated may be no message of the chunk, a child may say as much as its chunk, and a chunk that is
not as they are made may be refused. -/
theorem splitMessageChunk_not_conserving :
    (¬ ∀ (C : Chunker) (options : ChunkOptions) (messages : List ChatMessage) (chunk : MessageChunk) (key : String)
        (children : List MessageChunk), Produced C options messages chunk →
        splitMessageChunk C.toTokenizer chunk key = .ok children → ∀ child ∈ children, ∀ m ∈ child.messages,
          m.sourceIndex.any (· ∈ child.coreSourceIndices) = true ∨ ∃ m' ∈ chunk.messages, m'.content = m.content) ∧
    (¬ ∀ (C : Chunker) (options : ChunkOptions) (messages : List ChatMessage) (chunk : MessageChunk) (key : String)
        (children : List MessageChunk), Produced C options messages chunk →
        splitMessageChunk C.toTokenizer chunk key = .ok children → ∀ child ∈ children,
          child.coreText.length < chunk.coreText.length) ∧
    ¬ ∀ (C : Chunker) (chunk : MessageChunk) (key : String), ∃ children,
      splitMessageChunk C.toTokenizer chunk key = .ok children := by
  refine ⟨?_, ?_, ?_⟩
  · intro h
    have hfound : ((chunksOf (adaptiveChunkMessages plainChunker defaultChunkOptions longQuestion)).any fun root =>
        (chunksOf (splitMessageChunk plainChunker.toTokenizer root "root")).any fun child =>
          child.messages.any fun m => !m.sourceIndex.any (· ∈ child.coreSourceIndices) &&
            root.messages.all fun m' => m'.content ≠ m.content) = true := by decide +kernel
    simp only [List.any_eq_true, Bool.and_eq_true, Bool.not_eq_true', List.all_eq_true, decide_eq_true_eq] at hfound
    obtain ⟨root, hroot, child, hchild, m, hm, hcore, hother⟩ := hfound
    obtain ⟨roots, hroots, hroot⟩ := chunksOf_mem hroot
    obtain ⟨children, hchildren, hchild⟩ := chunksOf_mem hchild
    rcases h _ _ _ _ _ _ (.root hroots hroot) hchildren child hchild m hm with hown | ⟨m', hm', hsame⟩
    · rw [hcore] at hown
      cases hown
    · exact hother m' hm' hsame
  · intro h
    have hfound : ((chunksOf (adaptiveChunkMessages plainChunker defaultChunkOptions emptyQuestion)).any fun root =>
        (chunksOf (splitMessageChunk plainChunker.toTokenizer root "root")).any fun child =>
          root.coreText.length ≤ child.coreText.length) = true := by decide +kernel
    simp only [List.any_eq_true, decide_eq_true_eq] at hfound
    obtain ⟨root, hroot, child, hchild, hlength⟩ := hfound
    obtain ⟨roots, hroots, hroot⟩ := chunksOf_mem hroot
    obtain ⟨children, hchildren, hchild⟩ := chunksOf_mem hchild
    have hlt := h _ _ _ _ _ _ (.root hroots hroot) hchildren child hchild
    omega
  · intro h
    obtain ⟨children, hchildren⟩ := h plainChunker clashChunk "root"
    have hrefused : splitMessageChunk plainChunker.toTokenizer clashChunk "root" =
        .error (.multipleRoles (some 0)) := by
      rfl
    rw [hrefused] at hchildren
    cases hchildren

end YiQiao
