import Mathlib.Data.String.Basic
import YiQiao.Lib.Fallible
import YiQiao.Lib.Stable
import YiQiao.Memory.Scope
import YiQiao.Memory.State

/-!
# Saved messages and their ids

The `messages` table of the SQLite database, with the ids of its rows. A call saves a batch under one time and keeps the
ten newest messages of its scope; rows of one time stand in the order of the table. An id that stands already, under
whatever scope, is passed over where the caller gives the ids.
-/

namespace YiQiao

open Lib Fallible

/-! ## The table -/

/-- A row of the `messages` table. -/
structure StoredMessage where
  id : String
  scope : String
  role : Value
  content : Value
  name : Value
  createdAt : String

/-- The rows in the order they were inserted. -/
abbrev MessageStore := List StoredMessage

def StoredMessage.of (now scope : String) (id : String) (message : Entries) : StoredMessage where
  id := id
  scope := scope
  role := Payload.get message "role"
  content := Payload.get message "content"
  name := Payload.get message "name"
  createdAt := now

/-- A call of `save_messages`, with the time it reads and the ids it draws. -/
structure SaveCall where
  messages : List Entries
  scope : String
  messageIds : Option (List String)
  now : String
  drawn : List String
  drawnLength : drawn.length = messages.length

def SaveCall.ids (call : SaveCall) : List String := call.messageIds.getD call.drawn

/-- The rows the call inserts. -/
def SaveCall.rows (call : SaveCall) : List StoredMessage :=
  (call.ids.zip call.messages).map fun e => StoredMessage.of call.now call.scope e.1 e.2

namespace MessageStore

/-- `INSERT`, or `INSERT OR IGNORE`. -/
def insertRow (ignore : Bool) (store : MessageStore) (m : StoredMessage) : Except PyError MessageStore := do
  bindAll [m.role, m.content, m.name]
  if m.id ∈ store.map StoredMessage.id then if ignore then pure store else .error .databaseError
  else pure (store ++ [m])

def ofScope (scope : String) (store : MessageStore) : MessageStore := store.filter fun m => m.scope = scope

/-- `ORDER BY created_at DESC LIMIT` over the rows of one scope. -/
def newest (scope : String) (limit : Nat) (store : MessageStore) : List StoredMessage :=
  topK (fun a b => b.createdAt ≤ a.createdAt) limit (store.ofScope scope)

/-- The rows of the scope beyond the ten newest are deleted. -/
def evict (scope : String) (store : MessageStore) : MessageStore :=
  store.filter fun m => m.scope ≠ scope ∨ m.id ∈ (store.newest scope 10).map StoredMessage.id

/-- `save_messages`. -/
def saveMessages (call : SaveCall) (store : MessageStore) : Except PyError MessageStore :=
  if call.messages.isEmpty then .ok store
  else if call.ids.length ≠ call.messages.length then
    .error (.valueError "message_ids must have the same length as messages")
  else do
    let inserted ← call.rows.foldlM (insertRow call.messageIds.isSome) store
    pure (inserted.evict call.scope)

/-- `get_last_messages`. -/
def getLastMessages (scope : String) (limit : Nat) (store : MessageStore) : List StoredMessage :=
  ascending StoredMessage.createdAt (store.newest scope limit)

end MessageStore

/-! ## The ids of imported messages -/

/-- What the id of an imported message is made of. -/
structure ImportIdentity where
  conversationId : String
  messageFingerprint : String
  occurrence : Nat
  projectId : String
  sourceApp : String
  sourceIndex : Int
  sourcePath : String

/-- What the ids of imported messages ask of Python. -/
structure IdentityReader where
  platform : Platform
  /-- `sha256` of the content and the role. -/
  fingerprint : String → String → String
  /-- `uuid5` of an identity of the second version. -/
  identityId : ImportIdentity → String
  /-- `uuid5` of a text. -/
  textId : String → String

/-- `str(metadata.get(key) or "")`. -/
def metadataText (I : IdentityReader) (metadata : Entries) (key : String) : String :=
  textOrEmpty I.platform (Payload.get metadata key)

/-- The id of one message, with the occurrences of the fingerprints so far. -/
def importMessageId (I : IdentityReader) (metadata : Entries) (sessionScope : String)
    (seen : List (Int × String)) (position : Nat) (message : Entries) : String × List (Int × String) :=
  match metadataText I metadata "conversation_id", Payload.get message "source_index" with
  | conversationId, .num index 0 =>
      if conversationId = "" then
        (I.textId ("mem0:import-message:" ++ sessionScope ++ ":" ++ metadataText I metadata "import_key" ++ ":" ++
          intText position), seen)
      else
        let fingerprint := I.fingerprint (textOrEmpty I.platform (Payload.get message "content"))
          (strip (textOrEmpty I.platform (Payload.get message "role")))
        (I.identityId ⟨conversationId, fingerprint, seen.count (index, fingerprint),
          metadataText I metadata "project_id", metadataText I metadata "source_app", index,
          metadataText I metadata "source_path"⟩, (index, fingerprint) :: seen)
  | _, _ =>
      (I.textId ("mem0:import-message:" ++ sessionScope ++ ":" ++ metadataText I metadata "import_key" ++ ":" ++
        intText position), seen)

def importMessageIdsFrom (I : IdentityReader) (metadata : Entries) (sessionScope : String) :
    List (Int × String) → Nat → List Entries → List String
  | _, _, [] => []
  | seen, position, message :: messages =>
      let made := importMessageId I metadata sessionScope seen position message
      made.1 :: importMessageIdsFrom I metadata sessionScope made.2 (position + 1) messages

/-- `_import_message_ids`. -/
def importMessageIds (I : IdentityReader) (messages : List Entries) (metadata : Entries) (sessionScope : String) :
    Option (List String) :=
  if metadataText I metadata "import_key" = "" then none
  else some (importMessageIdsFrom I metadata sessionScope [] 0 messages)

/-- The ids of a conversation with indices are the same in every scope. -/
theorem importMessageIds_scope {I : IdentityReader} {messages : List Entries} {metadata : Entries} {a b : String}
    (hconversation : metadataText I metadata "conversation_id" ≠ "")
    (hindexed : ∀ m ∈ messages, ∃ index, Payload.get m "source_index" = .num index 0) :
    importMessageIds I messages metadata a = importMessageIds I messages metadata b := by
  have hsame : ∀ seen position, importMessageIdsFrom I metadata a seen position messages =
      importMessageIdsFrom I metadata b seen position messages := by
    induction messages with
    | nil => simp [importMessageIdsFrom]
    | cons message messages ih =>
      obtain ⟨⟨index, hindex⟩, hrest⟩ := List.forall_mem_cons.mp hindexed
      intro seen position
      have hmade : importMessageId I metadata a seen position message =
          importMessageId I metadata b seen position message := by
        simp [importMessageId, hindex, hconversation]
      rw [importMessageIdsFrom, importMessageIdsFrom, hmade, ih hrest]
  rw [importMessageIds, importMessageIds, hsame]

/-! ## Runs of saves -/

/-- The messages whose ids do not stand before them. -/
def freshOf : List String → List StoredMessage → List StoredMessage
  | _, [] => []
  | known, m :: rows => if m.id ∈ known then freshOf known rows else m :: freshOf (m.id :: known) rows

/-- The table after a run, with every row the run was given to save. -/
structure SavedRun where
  store : MessageStore
  log : List StoredMessage

namespace SavedRun

def start : SavedRun := ⟨[], []⟩

/-- A save that raises is rolled back. -/
def save (s : SavedRun) (call : SaveCall) : SavedRun :=
  match s.store.saveMessages call with
  | .ok store => ⟨store, s.log ++ call.rows⟩
  | .error _ => s

/-- The distinct messages that were saved for a scope, in the order they were saved first. -/
def distinct (s : SavedRun) (scope : String) : List StoredMessage :=
  freshOf [] (MessageStore.ofScope scope s.log)

/-- The last ten of the distinct messages are found. -/
def Kept (s : SavedRun) (scope : String) : Prop :=
  s.store.getLastMessages scope 10 = latest 10 (s.distinct scope)

/-- What a save leaves to the limit: the messages of the scope with the new ones. -/
def candidates (s : SavedRun) (call : SaveCall) : List StoredMessage :=
  s.store.ofScope call.scope ++ freshOf (s.store.map StoredMessage.id) call.rows

/-- The clock has not gone back, an id that was saved before stands under the scope, and the limit cuts no batch. -/
structure Orderly (s : SavedRun) (call : SaveCall) : Prop where
  clock : ∀ m ∈ s.store.ofScope call.scope, m.createdAt ≤ call.now
  known : ∀ id ∈ call.ids, id ∈ s.log.map StoredMessage.id →
    ∃ m ∈ s.store.ofScope call.scope, m.id = id
  whole : ∀ m ∈ (s.candidates call).take ((s.candidates call).length - 10),
    ∀ m' ∈ latest 10 (s.candidates call), m.createdAt < m'.createdAt

/-- A run of orderly saves. -/
inductive Reached : SavedRun → Prop
  | start : Reached .start
  | save {s : SavedRun} {call : SaveCall} (h : Reached s) (horderly : s.Orderly call) : Reached (s.save call)

end SavedRun

/-! ## Fresh messages -/

section

variable {known known' : List String} {rows : List StoredMessage}

theorem freshOf_congr (h : ∀ m ∈ rows, m.id ∈ known ↔ m.id ∈ known') : freshOf known rows = freshOf known' rows := by
  induction rows generalizing known known' with
  | nil => rfl
  | cons m rows ih =>
    obtain ⟨hm, hrest⟩ := List.forall_mem_cons.mp h
    have hgrown : freshOf (m.id :: known) rows = freshOf (m.id :: known') rows := by
      apply ih
      intro m' hm'
      rw [List.mem_cons, List.mem_cons, hrest m' hm']
    by_cases hknown : m.id ∈ known
    · simp [freshOf, hknown, hm.mp hknown, ih hrest]
    · simp [freshOf, hknown, mt hm.mpr hknown, hgrown]

theorem freshOf_append (known : List String) (rows more : List StoredMessage) :
    freshOf known (rows ++ more) = freshOf known rows ++ freshOf (rows.map StoredMessage.id ++ known) more := by
  induction rows generalizing known with
  | nil => rfl
  | cons m rows ih =>
    by_cases hknown : m.id ∈ known
    · rw [List.cons_append, freshOf, if_pos hknown, ih, freshOf, if_pos hknown]
      congr 1
      apply freshOf_congr
      intro m' _
      simp only [List.map_cons, List.cons_append, List.mem_append, List.mem_cons]
      constructor
      · exact .inr
      · rintro (h | h)
        · exact .inr (h ▸ hknown)
        · exact h
    · rw [List.cons_append, freshOf, if_neg hknown, ih, freshOf, if_neg hknown, List.cons_append]
      congr 2
      apply freshOf_congr
      intro m' _
      simp only [List.map_cons, List.cons_append, List.mem_append, List.mem_cons]
      tauto

theorem freshOf_subset : freshOf known rows ⊆ rows := by
  induction rows generalizing known with
  | nil => exact List.Subset.refl _
  | cons m rows ih =>
    unfold freshOf
    split
    · exact List.subset_cons_of_subset m ih
    · exact List.cons_subset_cons m ih

theorem freshOf_notMem {m : StoredMessage} (hm : m ∈ freshOf known rows) : m.id ∉ known := by
  induction rows generalizing known with
  | nil => cases hm
  | cons m' rows ih =>
    unfold freshOf at hm
    split at hm
    · exact ih hm
    · rename_i hnew
      rcases List.mem_cons.mp hm with rfl | hm
      · exact hnew
      · intro hmem
        exact ih hm (List.mem_cons_of_mem _ hmem)

theorem freshOf_nodup : ((freshOf known rows).map StoredMessage.id).Nodup := by
  induction rows generalizing known with
  | nil => exact List.nodup_nil
  | cons m rows ih =>
    unfold freshOf
    split
    · exact ih
    · rw [List.map_cons, List.nodup_cons]
      refine ⟨?_, ih⟩
      intro hmem
      obtain ⟨m', hm', hid⟩ := List.mem_map.mp hmem
      exact freshOf_notMem hm' (hid ▸ List.mem_cons_self)

end

/-! ## One save -/

namespace MessageStore

variable {store store' : MessageStore} {rows : List StoredMessage} {call : SaveCall} {scope : String}

theorem insertRows_ok {ignore : Bool} (h : rows.foldlM (insertRow ignore) store = .ok store') :
    store' = store ++ freshOf (store.map StoredMessage.id) rows := by
  induction rows generalizing store with
  | nil =>
    rw [List.foldlM_nil, pure_ok] at h
    rw [freshOf, List.append_nil, h]
  | cons m rows ih =>
    simp only [List.foldlM_cons, insertRow, bind_ok] at h
    obtain ⟨next, ⟨_, _, hnext⟩, hrest⟩ := h
    split at hnext
    · rename_i hknown
      split at hnext
      · cases hnext
        rw [ih hrest, freshOf, if_pos hknown]
      · cases hnext
    · rename_i hnew
      cases hnext
      rw [ih hrest, freshOf, if_neg hnew, List.append_assoc, List.singleton_append]
      congr 2
      apply freshOf_congr
      intro m' _
      simp [or_comm]

theorem ofScope_append (a b : MessageStore) : ofScope scope (a ++ b) = ofScope scope a ++ ofScope scope b :=
  List.filter_append _ _

theorem mem_rows {m : StoredMessage} (hm : m ∈ call.rows) :
    m.id ∈ call.ids ∧ m.scope = call.scope ∧ m.createdAt = call.now := by
  obtain ⟨e, he, rfl⟩ := List.mem_map.mp hm
  exact ⟨(List.of_mem_zip he).1, rfl, rfl⟩

theorem ofScope_rows (hrows : rows ⊆ call.rows) : ofScope scope rows = if call.scope = scope then rows else [] := by
  split
  · rename_i h
    apply List.filter_eq_self.mpr
    intro m hm
    simpa [← h] using (mem_rows (hrows hm)).2.1
  · rename_i h
    apply List.filter_eq_nil_iff.mpr
    intro m hm hscope
    exact h ((mem_rows (hrows hm)).2.1.symm.trans (by simpa using hscope))

/-- What a save that returned left: the new rows behind the others, without those beyond the limit. -/
theorem saveMessages_ok (h : store.saveMessages call = .ok store') :
    (call.rows = [] ∧ store' = store) ∨
      store' = evict call.scope (store ++ freshOf (store.map StoredMessage.id) call.rows) := by
  unfold saveMessages at h
  split at h
  · rename_i hempty
    cases h
    refine .inl ⟨?_, rfl⟩
    rw [SaveCall.rows, List.isEmpty_iff.mp hempty, List.zip_nil_right, List.map_nil]
  · split at h
    · cases h
    · simp only [bind_ok, pure_ok] at h
      obtain ⟨inserted, hinserted, rfl⟩ := h
      rw [insertRows_ok hinserted]
      exact .inr rfl

/-- The rows of another scope stay. -/
theorem saveMessages_other (h : store.saveMessages call = .ok store') (hscope : scope ≠ call.scope) :
    ofScope scope store' = ofScope scope store := by
  rcases saveMessages_ok h with ⟨_, rfl⟩ | rfl
  · rfl
  · rw [evict, ofScope, List.filter_filter]
    have hkeep : (store ++ freshOf (store.map StoredMessage.id) call.rows).filter (fun m =>
        decide (m.scope = scope) && decide (m.scope ≠ call.scope ∨ m.id ∈
          (newest call.scope 10 (store ++ freshOf (store.map StoredMessage.id) call.rows)).map StoredMessage.id)) =
        ofScope scope (store ++ freshOf (store.map StoredMessage.id) call.rows) := by
      apply List.filter_congr
      intro m _
      by_cases hm : m.scope = scope
      · simp [hm, hscope]
      · simp [hm]
    rw [hkeep, ofScope_append, ofScope_rows freshOf_subset, if_neg hscope.symm, List.append_nil]

/-- A part of a list without repeated ids is found by its ids. -/
theorem filter_suffix_ids {front back : List StoredMessage} (h : ((front ++ back).map StoredMessage.id).Nodup) :
    (front ++ back).filter (fun m => decide (m.id ∈ back.map StoredMessage.id)) = back := by
  rw [List.map_append, List.nodup_append] at h
  rw [List.filter_append]
  have hfront : front.filter (fun m => decide (m.id ∈ back.map StoredMessage.id)) = [] := by
    apply List.filter_eq_nil_iff.mpr
    intro m hm hin
    exact h.2.2 _ (List.mem_map_of_mem hm) _ (of_decide_eq_true hin) rfl
  have hback : back.filter (fun m => decide (m.id ∈ back.map StoredMessage.id)) = back := by
    apply List.filter_eq_self.mpr
    intro m hm
    exact decide_eq_true (List.mem_map_of_mem hm)
  rw [hfront, hback, List.nil_append]

/-- The ten last rows of the scope are kept, where the limit cuts no batch. -/
theorem ofScope_evict (hids : (store.map StoredMessage.id).Nodup)
    (hwhole : ∀ m ∈ (store.ofScope scope).take ((store.ofScope scope).length - 10),
      ∀ m' ∈ latest 10 (store.ofScope scope), m.createdAt < m'.createdAt) :
    ofScope scope (evict scope store) = latest 10 (store.ofScope scope) := by
  have hperm := topK_perm_latest hwhole
  have hkept : ofScope scope (evict scope store) =
      (store.ofScope scope).filter fun m => decide (m.id ∈ (latest 10 (store.ofScope scope)).map StoredMessage.id) := by
    rw [evict, ofScope, ofScope, List.filter_filter, List.filter_filter]
    apply List.filter_congr
    intro m _
    by_cases hm : m.scope = scope
    · have hmem : m.id ∈ (newest scope 10 store).map StoredMessage.id ↔
          m.id ∈ (latest 10 (store.ofScope scope)).map StoredMessage.id := (hperm.map StoredMessage.id).mem_iff
      have hmem' := hmem
      simp only [ofScope] at hmem'
      simp [hm, hmem']
    · simp [hm]
  rw [hkept]
  have hsplit : store.ofScope scope =
      (store.ofScope scope).take ((store.ofScope scope).length - 10) ++ latest 10 (store.ofScope scope) :=
    (List.take_append_drop _ _).symm
  have hnodup : ((store.ofScope scope).map StoredMessage.id).Nodup := hids.sublist (List.filter_sublist.map _)
  rw [hsplit] at hnodup
  conv_lhs =>
    arg 2
    rw [hsplit]
  exact filter_suffix_ids hnodup

end MessageStore

/-! ## Runs -/

namespace SavedRun

variable {s : SavedRun} {call : SaveCall}

/-- The table shows the last ten of the distinct messages of every scope, in their order. -/
structure Sound (s : SavedRun) : Prop where
  unique : (s.store.map StoredMessage.id).Nodup
  shown : ∀ scope, s.store.ofScope scope = latest 10 (s.distinct scope)
  sorted : ∀ scope, (s.store.ofScope scope).Pairwise fun a b => a.createdAt ≤ b.createdAt

theorem Sound.start : Sound .start :=
  ⟨List.nodup_nil, fun _ => rfl, fun _ => List.Pairwise.nil⟩

theorem Sound.kept (h : s.Sound) (scope : String) : s.Kept scope := by
  have hshort : (s.store.ofScope scope).length ≤ 10 := by
    rw [h.shown]
    exact length_latest_le _ _
  rw [Kept, MessageStore.getLastMessages, MessageStore.newest, topK_of_length_le hshort]
  exact (ascending_descending (h.sorted scope)).trans (h.shown scope)

/-- What stands in the table was saved. -/
theorem Sound.logged (h : s.Sound) {m : StoredMessage} {scope : String} (hm : m ∈ s.store.ofScope scope) :
    m ∈ MessageStore.ofScope scope s.log := by
  rw [h.shown] at hm
  exact freshOf_subset ((latest_sublist _ _).subset hm)

/-- The rows of the call are new to the scope where they are new to the table. -/
theorem Sound.fresh (h : s.Sound) (horderly : s.Orderly call) :
    freshOf ((MessageStore.ofScope call.scope s.log).map StoredMessage.id ++ []) call.rows =
      freshOf (s.store.map StoredMessage.id) call.rows := by
  have hstored : ∀ m ∈ call.rows, m.id ∈ s.log.map StoredMessage.id →
      ∃ m' ∈ s.store.ofScope call.scope, m'.id = m.id :=
    fun m hm => horderly.known m.id (MessageStore.mem_rows hm).1
  apply freshOf_congr
  intro m hm
  rw [List.append_nil]
  constructor
  · intro hlog
    obtain ⟨m', hm', hid⟩ := hstored m hm ((List.filter_sublist.map _).subset hlog)
    exact hid ▸ List.mem_map_of_mem (List.mem_of_mem_filter hm')
  · intro hstore
    obtain ⟨m', hm', hid⟩ := List.mem_map.mp hstore
    have hown : m' ∈ s.store.ofScope m'.scope := List.mem_filter.mpr ⟨hm', by simp⟩
    have hlog : m.id ∈ s.log.map StoredMessage.id :=
      hid ▸ List.mem_map_of_mem (List.mem_of_mem_filter (h.logged hown))
    obtain ⟨m'', hm'', hid''⟩ := hstored m hm hlog
    exact hid'' ▸ List.mem_map_of_mem (h.logged hm'')

theorem distinct_append {rows : List StoredMessage} (hrows : rows ⊆ call.rows) (store : MessageStore) (scope : String) :
    distinct ⟨store, s.log ++ rows⟩ scope = s.distinct scope ++
      freshOf ((MessageStore.ofScope scope s.log).map StoredMessage.id ++ [])
        (if call.scope = scope then rows else []) := by
  rw [distinct, MessageStore.ofScope_append, freshOf_append, MessageStore.ofScope_rows hrows]
  rfl

theorem candidates_sorted (h : s.Sound) (horderly : s.Orderly call) :
    (s.candidates call).Pairwise fun a b => a.createdAt ≤ b.createdAt := by
  rw [candidates, List.pairwise_append]
  refine ⟨h.sorted _, ?_, ?_⟩
  · apply List.pairwise_of_forall_mem_list
    intro a ha b hb
    rw [(MessageStore.mem_rows (freshOf_subset ha)).2.2, (MessageStore.mem_rows (freshOf_subset hb)).2.2]
  · intro a ha b hb
    rw [(MessageStore.mem_rows (freshOf_subset hb)).2.2]
    exact horderly.clock a ha

theorem inserted_nodup (h : s.Sound) (call : SaveCall) :
    ((s.store ++ freshOf (s.store.map StoredMessage.id) call.rows).map StoredMessage.id).Nodup := by
  rw [List.map_append, List.nodup_append]
  refine ⟨h.unique, freshOf_nodup, ?_⟩
  intro id hid id' hid' he
  obtain ⟨m, hm, rfl⟩ := List.mem_map.mp hid'
  exact freshOf_notMem hm (he ▸ hid)

theorem ofScope_inserted (call : SaveCall) :
    MessageStore.ofScope call.scope (s.store ++ freshOf (s.store.map StoredMessage.id) call.rows) =
      s.candidates call := by
  rw [MessageStore.ofScope_append, MessageStore.ofScope_rows freshOf_subset, if_pos rfl, candidates]

/-- An orderly save keeps the table sound. -/
theorem Sound.save (h : s.Sound) (horderly : s.Orderly call) : (s.save call).Sound := by
  unfold SavedRun.save
  cases hsave : s.store.saveMessages call with
  | error e => exact h
  | ok store =>
    rcases MessageStore.saveMessages_ok hsave with ⟨hnone, hsame⟩ | hevicted
    · dsimp only
      rw [hnone, List.append_nil, hsame]
      exact h
    · have hshown : store.ofScope call.scope = latest 10 (s.candidates call) := by
        rw [hevicted, MessageStore.ofScope_evict (inserted_nodup h call), ofScope_inserted]
        rw [ofScope_inserted]
        exact horderly.whole
      constructor
      · rw [hevicted]
        exact (inserted_nodup h call).sublist (List.filter_sublist.map _)
      · intro scope
        dsimp only
        rw [distinct_append (List.Subset.refl _)]
        by_cases hscope : call.scope = scope
        · subst hscope
          rw [if_pos rfl, h.fresh horderly, ← latest_append, ← h.shown, hshown, candidates]
        · rw [if_neg hscope, freshOf, List.append_nil, MessageStore.saveMessages_other hsave (Ne.symm hscope), h.shown]
      · intro scope
        by_cases hscope : scope = call.scope
        · subst hscope
          rw [hshown]
          exact (candidates_sorted h horderly).sublist (latest_sublist _ _)
        · dsimp only
          rw [MessageStore.saveMessages_other hsave hscope]
          exact h.sorted scope

theorem Reached.sound (h : Reached s) : s.Sound := by
  induction h with
  | start => exact .start
  | save _ horderly ih => exact ih.save horderly

theorem save_other {scope : String} (limit : Nat) (hscope : scope ≠ call.scope) :
    (s.save call).store.getLastMessages scope limit = s.store.getLastMessages scope limit := by
  unfold save
  cases hsave : s.store.saveMessages call with
  | error e => rfl
  | ok store =>
    dsimp only
    rw [MessageStore.getLastMessages, MessageStore.newest, MessageStore.saveMessages_other hsave hscope]
    rfl

end SavedRun

/-- A run of orderly saves shows the last ten distinct messages of every scope; a save never changes another scope. -/
theorem saved_messages_kept (s : SavedRun) (h : s.Reached) (scope : String) :
    s.Kept scope ∧ ∀ (t : SavedRun) (call : SaveCall) (limit : Nat), scope ≠ call.scope →
      (t.save call).store.getLastMessages scope limit = t.store.getLastMessages scope limit :=
  ⟨h.sound.kept scope, fun _ _ limit hscope => SavedRun.save_other limit hscope⟩

/-- A user's message of a conversation. -/
def savedTurn (n : Nat) : Entries :=
  [("role", .str "user"), ("content", .str ("Message " ++ intText n)), ("source_index", .num n 0)]

/-- The first messages of a conversation in one call, without ids. -/
def turnsAtOnce (n : Nat) (scope now : String) (firstId : Nat) : SaveCall where
  messages := (List.range n).map savedTurn
  scope := scope
  messageIds := none
  now := now
  drawn := (List.range n).map fun i => intText (firstId + i)
  drawnLength := by simp

def identityReader : IdentityReader where
  platform := .ascii
  fingerprint := fun content role => role ++ content
  identityId := fun identity => identity.conversationId ++ intText identity.sourceIndex
  textId := id

/-- One message of a conversation that is imported for a scope. -/
def importedInto (scope now : String) : SaveCall where
  messages := [savedTurn 0]
  scope := scope
  messageIds := importMessageIds identityReader [savedTurn 0]
    [("import_key", .str "job"), ("conversation_id", .str "c1")] scope
  now := now
  drawn := ["-"]
  drawnLength := rfl

theorem saved_messages_orderly :
    ((SavedRun.start.save (turnsAtOnce 2 "user_id=a" "10:00" 0)).save (turnsAtOnce 3 "user_id=a" "10:01" 2)).Kept
      "user_id=a" := by
  apply And.left
  apply saved_messages_kept
  apply SavedRun.Reached.save
  · apply SavedRun.Reached.save .start
    exact ⟨by decide +kernel, by decide +kernel, by decide +kernel⟩
  · exact ⟨by decide +kernel, by decide +kernel, by decide +kernel⟩

/-- Of eleven messages in one call the last is lost, and a conversation that was imported for one user is lost for the
next. -/
theorem saved_messages_lost :
    ¬ (SavedRun.start.save (turnsAtOnce 11 "user_id=a" "10:00" 0)).Kept "user_id=a" ∧
      ¬ ((SavedRun.start.save (importedInto "user_id=a" "10:00")).save (importedInto "user_id=b" "10:01")).Kept
        "user_id=b" := by
  constructor
  · intro h
    have hids := congrArg (List.map StoredMessage.id) h
    revert hids
    decide +kernel
  · intro h
    have hids := congrArg (List.map StoredMessage.id) h
    revert hids
    decide +kernel

end YiQiao
