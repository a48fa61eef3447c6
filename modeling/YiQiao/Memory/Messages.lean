import YiQiao.Memory.Scope

/-!
# Messages

What `add` makes of the messages it is given: images become texts, and the texts become candidates.
-/

namespace YiQiao

open Lib

variable {V S : Type}

/-- `part["text"]` for every text part of a list of parts. -/
def textParts (parts : List Value) : Except PyError (List String) :=
  (parts.filter fun part => match part with
    | .dict d => (Payload.get d "type").isText "text"
    | _ => false).mapM fun part => match part with
    | .dict d => match d.lookup "text" with
      | some (.str s) => .ok s
      | _ => .error .typeError
    | _ => .error .typeError

/-- A message with a role and a text. -/
def textMessage (role : Value) (content : String) : Entries := [("role", role), ("content", .str content)]

/-- The message an image becomes. -/
def describedMessage (O : Providers V) (role image : Value) : Except PyError (Option Entries) :=
  match O.describeImage image with
  | some description => .ok (some (textMessage role description))
  | none => .error .providerError

/-- `content.get("image_url")["url"]`, where there is one. -/
def imageUrl (content : Entries) : Value :=
  match content.lookup "image_url" with
  | some (.dict d) => Payload.get d "url"
  | _ => .null

/-- A message whose content is a dictionary. -/
def parseContentDict (W : Writer V S) (O : Providers V) (message content : Entries) :
    Except PyError (Option Entries) :=
  if !(Payload.get content "type").isText "image_url" then .ok (some message)
  else if !W.enableVision then .ok none
  else if (imageUrl content).truthy then
    describedMessage O (Payload.get message "role") (imageUrl content)
  else .error (.valueError "image_url content part is missing image_url.url")

/-- A message whose content is a list of parts. -/
def parseContentList (W : Writer V S) (O : Providers V) (message : Entries) (parts : List Value) :
    Except PyError (Option Entries) :=
  if W.enableVision then describedMessage O (Payload.get message "role") (.dict message)
  else do
    let texts ← textParts parts
    pure (if texts.isEmpty then none
      else some (textMessage (Payload.get message "role") (" ".intercalate texts)))

/-- One iteration of the loop of `parse_vision_messages`. -/
def parseVisionMessage (W : Writer V S) (O : Providers V) : Value → Except PyError (Option Entries)
  | .dict message =>
      if (Payload.get message "role").isText "system" then .ok (some message)
      else match Payload.get message "content" with
        | .null => .ok none
        | .list parts => parseContentList W O message parts
        | .dict content => parseContentDict W O message content
        | _ => .ok (some message)
  | _ => .error .attributeError

/-- `parse_vision_messages`. -/
def parseVisionMessages (W : Writer V S) (O : Providers V) (messages : List Value) :
    Except PyError (List Entries) := do
  let parsed ← messages.mapM (parseVisionMessage W O)
  pure (parsed.filterMap id)

/-- The line of one message in `parse_messages`. -/
def messageLine (P : Platform) (message : Entries) : String :=
  let content := Payload.get message "content"
  match content, Payload.get message "role" with
  | .null, _ => ""
  | _, .str role =>
      if role = "system" ∨ role = "user" ∨ role = "assistant" then
        role ++ ": " ++ content.pyStr P ++ "\n"
      else ""
  | _, _ => ""

/-- `parse_messages`. -/
def parseMessages (P : Platform) (messages : List Entries) : String :=
  String.join (messages.map (messageLine P))

/-- The messages `add` keeps without inference: they have a role and a content, and no system role. -/
def isCandidate (message : Entries) : Bool :=
  let role := Payload.get message "role"
  let content := Payload.get message "content"
  (match role with | .null => false | _ => true) && (match content with | .null => false | _ => true) &&
    !role.isText "system"

/-- The messages that `messages` stands for. -/
def messageList : Value → Except PyError (List Value)
  | .str s => .ok [.dict [("role", .str "user"), ("content", .str s)]]
  | .dict d => .ok [.dict d]
  | .list messages => .ok messages
  | _ => .error (.validationError "VALIDATION_003")

end YiQiao
