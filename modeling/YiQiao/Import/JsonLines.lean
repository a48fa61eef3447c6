import YiQiao.Import.Branch
import YiQiao.Import.Keys
import YiQiao.Lib.JsonReader
import YiQiao.Memory.Lexical

/-!
# Conversations from JSON

`parse_json_data` reads one JSON value, `parse_jsonl_file` a file of one value in each line. The lines are those of
`str.splitlines`, which breaks at more characters than `json.dumps` escapes.
-/

namespace YiQiao

open Lib Fallible

/-- What the readers take from their environment. -/
structure ChatReader where
  platform : Platform
  lower : String → String
  /-- Python's number for a number of a text. -/
  number : List Char → Value
  /-- `coerce_iso_datetime`. -/
  isoDatetime : Option Value → Except PyError (Option String)
  /-- `strip_inline_base64_data_uris`. -/
  stripDataUris : Text → Text

/-- The file that is read. -/
structure ChatSource where
  stem : String
  sourceApp : String
  displayPath : String

/-- `ROLE_MAP` -/
def roleMap : List (String × String) :=
  [("assistant", "assistant"), ("ai", "assistant"), ("bot", "assistant"), ("chatgpt", "assistant"),
    ("claude", "assistant"), ("gemini", "assistant"), ("model", "assistant"), ("doubao", "assistant"),
    ("豆包", "assistant"), ("助手", "assistant"), ("human", "user"), ("me", "user"), ("sender", "user"),
    ("user", "user"), ("you", "user"), ("用户", "user"), ("我", "user"), ("developer", "system"),
    ("system", "system"), ("系统", "system")]

/-- The chain of `or`: the first value that is true, or the last one. -/
def orChain : List (Option Value) → Option Value
  | [] => none
  | [value] => value
  | value :: values => if (value.map Value.truthy).getD false then value else orChain values

def gets (raw : Entries) (keys : List String) : List (Option Value) := keys.map fun key => raw.lookup key

section
variable (R : ChatReader)

/-! ## Texts of a value -/

def normalizeRole (value : Option Value) : String :=
  (roleMap.lookup (R.lower (strip (((value.filter Value.truthy).getD (.str "user")).pyStr R.platform)))).getD "user"

mutual
def stringifyContent : Value → String
  | .null => ""
  | .str s => strip s
  | .list xs => strip ("\n".intercalate ((stringifyItems xs).filter (· ≠ "")))
  | .dict d =>
      let parts := stringifyFields d
      let dumped := String.ofList ((Value.dict d).json R.platform).render
      match ["text", "content", "value", "message"].findSome? fun key => parts.lookup key with
      | some part => part
      | none => match d.lookup "type" with
        | some (.str kind) => if kind = "text" then (parts.lookup "parts").getD dumped else dumped
        | _ => dumped
  | v => strip (v.pyStr R.platform)

def stringifyItems : List Value → List String
  | [] => []
  | v :: vs => stringifyContent v :: stringifyItems vs

/-- The texts of all fields, of which one is taken. -/
def stringifyFields : List (String × Value) → List (String × String)
  | [] => []
  | (key, v) :: d => (key, stringifyContent v) :: stringifyFields d
end

/-- A new `ChatMessage`. -/
def ChatReader.message (role content : String) (createdAt : Option Value) : ChatMessage :=
  ⟨role, R.stripDataUris content.toList, createdAt, none, 0⟩

/-! ## Generic conversations -/

def messageFromGeneric : Value → Option ChatMessage
  | .str s => if strip s = "" then none else some (R.message "user" (strip s) none)
  | .dict raw =>
      let role := normalizeRole R (orChain (gets raw ["role", "sender", "author", "from"]))
      let content := ((["content", "text", "message", "body", "data"].findSome? fun key => raw.lookup key).map (stringifyContent R)).getD ""
      if content = "" then none
      else some (R.message role content
        (orChain (gets raw ["created_at", "create_time", "timestamp", "time", "date"])))
  | _ => none

def conversationFromGeneric (src : ChatSource) (fallbackId : String) : Value → Option Conversation
  | .dict raw => match orChain (gets raw ["messages", "chat_messages", "turns", "items"]) with
    | some (.list rawMessages) => match rawMessages.filterMap (messageFromGeneric R) with
      | [] => none
      | first :: messages => some {
          id := ((orChain (gets raw ["id", "uuid", "conversation_id"] ++ [some (.str fallbackId)])).getD .null).pyStr
            R.platform
          title := ((orChain (gets raw ["title", "name", "summary"] ++ [some (.str src.stem)])).getD .null).pyStr
            R.platform
          messages := first :: messages
          createdAt := orChain (gets raw ["created_at", "create_time", "timestamp"] ++ [first.createdAt])
          updatedAt := orChain (gets raw ["updated_at", "update_time"])
          sourcePath := src.displayPath
          sourceApp := src.sourceApp
          sourceUrl := none }
    | _ => none
  | _ => none

/-- The conversations so far, and the messages of none of them. -/
structure Gathered where
  conversations : List Conversation
  looseMessages : List ChatMessage

/-- One round of either reader. -/
def gather (src : ChatSource) (g : Gathered) (item : Value × Nat) : Gathered :=
  match conversationFromGeneric R src (src.stem ++ "-" ++ toString item.2) item.1 with
  | some conversation => { g with conversations := g.conversations ++ [conversation] }
  | none => match messageFromGeneric R item.1 with
    | some message => { g with looseMessages := g.looseMessages ++ [message] }
    | none => g

/-- The loose messages are a conversation of their own. -/
def Gathered.all (src : ChatSource) (g : Gathered) : List Conversation :=
  match g.looseMessages with
  | [] => g.conversations
  | first :: messages => g.conversations ++ [{
      id := src.stem
      title := src.stem
      messages := first :: messages
      createdAt := first.createdAt
      updatedAt := none
      sourcePath := src.displayPath
      sourceApp := src.sourceApp
      sourceUrl := none }]

/-! ## ChatGPT exports -/

def contentFromChatgptMessage (message : Entries) : String :=
  let content := ((message.lookup "content").filter Value.truthy).getD (.dict [])
  match content with
  | .dict c => match (c.lookup "parts").or (c.lookup "text") with
    | some part => stringifyContent R part
    | none => stringifyContent R content
  | _ => stringifyContent R content

/-- The message of a node; an author that is no dictionary raises. -/
def chatgptMessage (node : Entries) : Except PyError (Option ChatMessage) :=
  match node.lookup "message" with
  | some (.dict message) => do
      let author ← match (message.lookup "author").filter Value.truthy with
        | none => .ok []
        | some (.dict author) => .ok author
        | some _ => .error .attributeError
      let role := normalizeRole R (author.lookup "role")
      let content := contentFromChatgptMessage R message
      pure (if role ∉ ["user", "assistant"] ∨ content = "" then none
        else some (R.message role content (message.lookup "create_time")))
  | _ => .ok none

/-- A mapping as a dictionary. -/
def ChatMapping.ofEntries (d : Entries) : ChatMapping := ⟨Dict.update [] d, Dict.Unique.update (d := []) List.nodup_nil d⟩

def chatgptConversation (src : ChatSource) (item : Value × Nat) : Except PyError (Option Conversation) :=
  match item.1 with
  | .dict d => match d.lookup "mapping" with
    | some (.dict mapping) => do
        let nodes ← chatgptActiveBranchNodes R.platform R.isoDatetime (.ofEntries mapping) (d.lookup "current_node")
        let messages ← nodes.mapM (chatgptMessage R)
        match messages.reduceOption with
        | [] => pure none
        | first :: messages => pure (some {
            id := ((orChain [d.lookup "id", some (.str ("chatgpt-" ++ toString item.2))]).getD .null).pyStr R.platform
            title := ((orChain [d.lookup "title", some (.str src.stem)]).getD .null).pyStr R.platform
            messages := first :: messages
            createdAt := orChain [d.lookup "create_time", first.createdAt]
            updatedAt := d.lookup "update_time"
            sourcePath := src.displayPath
            sourceApp := src.sourceApp
            sourceUrl := none })
    | _ => .ok none
  | _ => .ok none

/-- The value is a dictionary with a `mapping`. -/
def hasMapping : Value → Bool
  | .dict d => (d.lookup "mapping").isSome
  | _ => false

def parseChatgptExport (src : ChatSource) : Value → Except PyError (List Conversation)
  | .list items =>
      if items.any hasMapping then (items.zipIdx.mapM (chatgptConversation R src)).map List.reduceOption else .ok []
  | _ => .ok []

/-! ## The readers -/

def parseJsonData (src : ChatSource) (data : Value) : Except PyError (List Conversation) := do
  let chatgpt ← parseChatgptExport R src data
  let candidates := match data with
    | .dict d => match d.lookup "conversations", d.lookup "data" with
      | some (.list conversations), _ => conversations
      | _, some (.list items) => items
      | _, _ => [data]
    | .list items => items
    | _ => []
  pure (if chatgpt.isEmpty then (candidates.zipIdx.foldl (gather R src) ⟨[], []⟩).all src else chatgpt)

/-- `str.splitlines`, after the characters of a line that has begun. -/
def splitLinesFrom (line : List Char) : List Char → List (List Char)
  | [] => if line = [] then [] else [line]
  | '\r' :: '\n' :: rest => line :: splitLinesFrom [] rest
  | c :: rest => if isLineBreak c then line :: splitLinesFrom [] rest else splitLinesFrom (line ++ [c]) rest

mutual
/-- The value that `json.loads` makes. -/
def ChatReader.value : Json → Value
  | .null => .null
  | .bool b => .bool b
  | .number token => R.number token
  | .str s => .str (String.ofList s)
  | .arr items => .list (ChatReader.valueItems items)
  | .obj fields => .dict (ChatReader.valueFields fields)

def ChatReader.valueItems : List Json → List Value
  | [] => []
  | v :: vs => ChatReader.value v :: ChatReader.valueItems vs

def ChatReader.valueFields : List (String × Json) → List (String × Value)
  | [] => []
  | (key, v) :: fields => (key, ChatReader.value v) :: ChatReader.valueFields fields
end

/-- One line: `if not line.strip(): continue`, and then `json.loads`. -/
def readJsonLine (src : ChatSource) (g : Gathered) (line : List Char × Nat) : Except PyError Gathered :=
  if line.1.all isSpace then .ok g
  else match loads line.1 with
    | some v => .ok (gather R src g (R.value v, line.2))
    | none => .error (.valueError "JSONDecodeError")

/-- The reader on the text of the file. -/
def parseJsonlFile (src : ChatSource) (text : List Char) : Except PyError (List Conversation) := do
  let g ← (splitLinesFrom [] text).zipIdx.foldlM (readJsonLine R src) ⟨[], []⟩
  pure (g.all src)

end

/-- A conversation record. -/
structure JsonRecord where
  json : Json
  sound : json.Sound

/-- One value per line, as `json.dumps` writes it with `ensure_ascii=False`. -/
def jsonLines (records : List JsonRecord) : List Char := records.flatMap fun r => r.json.render ++ ['\n']

def ChatReader.records (R : ChatReader) (records : List JsonRecord) : Value := .list (records.map fun r => R.value r.json)

/-- No string and no key has a character that `splitlines` breaks at and `json.dumps` does not escape. -/
def JsonRecord.Unbroken (r : JsonRecord) : Prop := ∀ c ∈ r.json.chars, c ∉ ['\x85', '\u2028', '\u2029']

/-! ## Lines -/

section

variable {line u rest : List Char} {c : Char}

theorem splitLinesFrom_break (hu : ∀ d ∈ u, isLineBreak d = false) (hc : isLineBreak c = true) (hreturn : c ≠ '\r') :
    splitLinesFrom line (u ++ c :: rest) = (line ++ u) :: splitLinesFrom [] rest := by
  induction u generalizing line with
  | nil =>
    rw [List.nil_append, splitLinesFrom, if_pos hc, List.append_nil]
    intro rest' hsame
    exact absurd hsame hreturn
  | cons d u ih =>
    obtain ⟨hd, hrest⟩ := List.forall_mem_cons.mp hu
    have hplain : d ≠ '\r' := by
      rintro rfl
      revert hd
      decide
    rw [List.cons_append, splitLinesFrom, hd]
    · simpa using @ih (line ++ [d]) hrest
    · intro rest' hsame
      exact absurd hsame hplain

theorem isLineBreak_printable (hc : isLineBreak c = true) (hprintable : 32 ≤ c.toNat) :
    c ∈ ['\x85', '\u2028', '\u2029'] := by
  simp only [isLineBreak, decide_eq_true_eq, List.mem_cons, List.not_mem_nil, or_false] at hc
  rcases hc with rfl | rfl | rfl | rfl | rfl | rfl | rfl | rfl | rfl | rfl
  case inr.inr.inr.inr.inr.inr.inr.inl => simp
  case inr.inr.inr.inr.inr.inr.inr.inr.inl => simp
  case inr.inr.inr.inr.inr.inr.inr.inr.inr => simp
  all_goals exact absurd hprintable (by decide)

theorem breaks_beyond : ∀ c ∈ ['\x85', '\u2028', '\u2029'], isLineBreak c = true ∧ 127 ≤ c.toNat :=
  List.all_iff_forall_prop.mp (by decide)

/-- A record is broken where its text has a line break. -/
theorem unbroken_iff {r : JsonRecord} : r.Unbroken ↔ ∀ c ∈ r.json.render, isLineBreak c = false := by
  constructor
  · intro h c hc
    cases hbreak : isLineBreak c with
    | false => rfl
    | true =>
      obtain ⟨hprintable, hchars⟩ := render_chars r.sound hc
      have hmem := isLineBreak_printable hbreak hprintable
      exact absurd hmem (h c (hchars (breaks_beyond c hmem).2))
  · intro h c hc hmem
    obtain ⟨hbreak, hbeyond⟩ := breaks_beyond c hmem
    rw [h c (mem_render hbeyond hc)] at hbreak
    cases hbreak

/-- A text begins with a character that is no space. -/
theorem render_begins {v : Json} (hv : v.Sound) :
    ∃ first rest, v.render = first :: rest ∧ isSpace first = false ∧ first.toNat < 127 := by
  have hnumber {c : Char} (h : isNumberChar c = true) : isSpace c = false := by
    obtain ⟨hlow, hhigh⟩ := number_chars h
    simp [isSpace]
    omega
  cases v with
  | null => exact ⟨_, _, rfl, by decide, by decide⟩
  | bool b => cases b <;> exact ⟨_, _, rfl, by decide, by decide⟩
  | number token =>
    cases token with
    | nil => exact absurd hv (by simp [Json.Sound, isNumberText, isUnsigned, isDigits])
    | cons c token =>
      have hc := numberChars hv c List.mem_cons_self
      exact ⟨c, token, rfl, hnumber hc, (number_chars hc).2⟩
  | str s => exact ⟨_, _, rfl, by decide, by decide⟩
  | arr items => exact ⟨_, _, rfl, by decide, by decide⟩
  | obj fields => exact ⟨_, _, rfl, by decide, by decide⟩

/-- A line that is there and that is no JSON text. -/
def Unreadable (line : List Char) : Prop := line.all isSpace = false ∧ loads line = none

/-- What stands before a break inside a record is a line that cannot be read. -/
theorem unreadable_of_broken {r : JsonRecord} (h : ¬r.Unbroken) (rest : List Char) :
    ∃ line ∈ splitLinesFrom [] (r.json.render ++ rest), Unreadable line := by
  have hbreak : ∃ c, r.json.render.find? isLineBreak = some c := by
    rw [← Option.isSome_iff_exists, List.find?_isSome]
    by_contra hnone
    apply h
    rw [unbroken_iff]
    intro c hc
    cases hc' : isLineBreak c with
    | false => rfl
    | true => exact absurd ⟨c, hc, hc'⟩ hnone
  obtain ⟨c, hfind⟩ := hbreak
  obtain ⟨hc, u, u', hrender, hbefore⟩ := List.find?_eq_some_iff_append.mp hfind
  have hmem : c ∈ r.json.render := by simp [hrender]
  have hbeyond : 127 ≤ c.toNat :=
    (breaks_beyond c (isLineBreak_printable hc (render_chars r.sound hmem).1)).2
  refine ⟨u, ?_, ?_, loads_cut r.sound hrender hbeyond⟩
  · rw [hrender, List.append_assoc, List.cons_append, splitLinesFrom_break (by simpa using hbefore) hc]
    · simp
    · rintro rfl
      revert hbeyond
      decide
  · obtain ⟨first, tail, hfirst, hspace, hascii⟩ := render_begins r.sound
    cases u with
    | nil =>
      rw [hrender] at hfirst
      rw [(List.cons.inj hfirst).1] at hbeyond
      omega
    | cons d u =>
      rw [hrender] at hfirst
      rw [(List.cons.inj hfirst).1, List.all_cons, hspace]
      rfl

theorem splitLinesFrom_record {r : JsonRecord} (h : r.Unbroken) (rest : List Char) :
    splitLinesFrom [] (r.json.render ++ '\n' :: rest) = r.json.render :: splitLinesFrom [] rest :=
  splitLinesFrom_break (unbroken_iff.mp h) (by decide) (by decide)

theorem jsonLines_cons (r : JsonRecord) (records : List JsonRecord) :
    jsonLines (r :: records) = r.json.render ++ '\n' :: jsonLines records := by
  simp [jsonLines]

end

/-! ## One reader and the other -/

section

variable {R : ChatReader} {src : ChatSource}

/-- The lines of unbroken records are read one by one. -/
theorem readJsonLines_ok {records : List JsonRecord} (h : ∀ r ∈ records, r.Unbroken) (g : Gathered) (k : Nat) :
    ((splitLinesFrom [] (jsonLines records)).zipIdx k).foldlM (readJsonLine R src) g =
      .ok (((records.map fun r => R.value r.json).zipIdx k).foldl (gather R src) g) := by
  induction records generalizing g k with
  | nil => rfl
  | cons r records ih =>
    obtain ⟨hr, hrest⟩ := List.forall_mem_cons.mp h
    have hspace : r.json.render.all isSpace = false := by
      obtain ⟨first, tail, hfirst, hnone, _⟩ := render_begins r.sound
      rw [hfirst, List.all_cons, hnone]
      rfl
    have hline : readJsonLine R src g (r.json.render, k) = .ok (gather R src g (R.value r.json, k)) := by
      simp [readJsonLine, hspace, loads_render r.sound]
    rw [jsonLines_cons, splitLinesFrom_record hr, List.zipIdx_cons, List.foldlM_cons, hline]
    exact ih hrest (gather R src g (R.value r.json, k)) (k + 1)

/-- A line that cannot be read ends the reading. -/
theorem readJsonLines_error {lines : List (List Char)} (h : ∃ line ∈ lines, Unreadable line) (g : Gathered) (k : Nat) :
    ∃ e, (lines.zipIdx k).foldlM (readJsonLine R src) g = .error e := by
  induction lines generalizing g k with
  | nil => simp at h
  | cons line lines ih =>
    rw [List.zipIdx_cons, List.foldlM_cons]
    cases hline : readJsonLine R src g (line, k) with
    | error e => exact ⟨e, rfl⟩
    | ok g' =>
      apply ih
      obtain ⟨bad, hmem, hunreadable⟩ := h
      rcases List.mem_cons.mp hmem with rfl | hmem
      · simp [readJsonLine, hunreadable.1, hunreadable.2] at hline
      · exact ⟨bad, hmem, hunreadable⟩

theorem unreadable_line {records : List JsonRecord} (h : ∃ r ∈ records, ¬r.Unbroken) :
    ∃ line ∈ splitLinesFrom [] (jsonLines records), Unreadable line := by
  induction records with
  | nil => simp at h
  | cons r records ih =>
    rw [jsonLines_cons]
    by_cases hr : r.Unbroken
    · obtain ⟨bad, hmem, hbad⟩ := h
      rcases List.mem_cons.mp hmem with rfl | hmem
      · exact absurd hr hbad
      · obtain ⟨line, hline, hunreadable⟩ := ih ⟨bad, hmem, hbad⟩
        rw [splitLinesFrom_record hr]
        exact ⟨line, List.mem_cons_of_mem _ hline, hunreadable⟩
    · exact unreadable_of_broken hr _

/-- Records that are no ChatGPT export are read alike from a list and from lines exactly if nothing in them breaks a
line. -/
theorem jsonl_reads_alike_iff (R : ChatReader) (src : ChatSource) (records : List JsonRecord)
    (hformat : parseChatgptExport R src (R.records records) = .ok []) :
    parseJsonlFile R src (jsonLines records) = parseJsonData R src (R.records records) ↔ ∀ r ∈ records, r.Unbroken := by
  have hdata : parseJsonData R src (R.records records) =
      .ok ((((records.map fun r => R.value r.json).zipIdx 0).foldl (gather R src) ⟨[], []⟩).all src) := by
    rw [ChatReader.records] at hformat ⊢
    rw [parseJsonData, hformat]
    rfl
  rw [hdata]
  constructor
  · intro hsame
    by_contra hbroken
    obtain ⟨e, herror⟩ := @readJsonLines_error R src _ (unreadable_line (by simpa using hbroken)) ⟨[], []⟩ 0
    rw [parseJsonlFile, herror] at hsame
    cases hsame
  · intro h
    rw [parseJsonlFile, readJsonLines_ok h]
    rfl

end

/-! ## A line separator in a message -/

/-- A reader of ASCII texts. -/
def asciiReader : ChatReader where
  platform := .ascii
  lower := fun s => String.ofList (s.toList.map Char.toLower)
  number := fun token => ((String.ofList token).toInt?.map Value.ofInt).getD .null
  isoDatetime := fun _ => .ok none
  stripDataUris := id

def chatSource : ChatSource := ⟨"chat", "generic", "chat.jsonl"⟩

/-- A conversation of one message. -/
def chatRecord (content : List Char) : JsonRecord where
  json := .obj [("messages", .arr [.obj [("role", .str "user".toList), ("content", .str content)]])]
  sound := by simp [Json.Sound, Json.SoundItems, Json.SoundFields, Dict.Unique]

theorem chat_record_kept :
    parseJsonlFile asciiReader chatSource (jsonLines [chatRecord "tea".toList]) =
      parseJsonData asciiReader chatSource (asciiReader.records [chatRecord "tea".toList]) ↔
    ∀ r ∈ [chatRecord "tea".toList], r.Unbroken :=
  jsonl_reads_alike_iff asciiReader chatSource [chatRecord "tea".toList] (by with_unfolding_all rfl)

/-- A message with a line separator: the first half of the record is no JSON text. -/
theorem line_separator_lost : ¬∀ (R : ChatReader) (src : ChatSource) (records : List JsonRecord),
    parseChatgptExport R src (R.records records) = .ok [] →
      parseJsonlFile R src (jsonLines records) = parseJsonData R src (R.records records) := by
  intro h
  have hsame := h asciiReader chatSource [chatRecord ['a', '\u2028', 'b']] (by with_unfolding_all rfl)
  have hlines : parseJsonlFile asciiReader chatSource (jsonLines [chatRecord ['a', '\u2028', 'b']]) =
      .error (.valueError "JSONDecodeError") := by with_unfolding_all rfl
  rw [hlines] at hsame
  cases hsame

end YiQiao
