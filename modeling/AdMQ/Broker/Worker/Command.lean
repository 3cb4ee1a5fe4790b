import AdMQ.Core.Scan

/-!
# The commands of a client line

How the worker reads a complete line: `sscanf` with the conversions
`%31s %63s %799[^\n]`, then a chain of comparisons on the command word and the
number of converted items. The replies are the texts the worker writes back.
-/

namespace AdMQ

open Core

/-- The message that the worker looks at: the line up to its first return character. -/
def messageOf (line : CStr) : CStr := line.takeWhile (· != byte '\r')

/-- The outcome of `sscanf(complete_message, "%31s %63s %799[^\n]", ...)`. -/
structure Scanned where
  /-- 0 also for a blank line, for which `sscanf` returns -1: no branch tells the two apart. -/
  parsedItems : Nat
  command : CStr
  topic : CStr
  payload : CStr
  deriving DecidableEq

/-- The three conversions in turn; each starts where the one before it stopped. -/
def scanMessage (message : CStr) : Scanned :=
  match scanWord 31 message with
  | none => ⟨0, [], [], []⟩
  | some (command, rest) =>
    match scanWord 63 rest with
    | none => ⟨1, command, [], []⟩
    | some (topic, rest) =>
      match scanUntil 799 newline (rest.dropWhile isspace) with
      | none => ⟨2, command, topic, []⟩
      | some (payload, _) => ⟨3, command, topic, payload⟩

/-- The branches of the command chain. -/
inductive Command where
  | set (key value : CStr)
  | get (key payload : CStr)
  | ping
  | pong
  | subscribe (topic payload : CStr)
  | unsubscribe (topic : CStr)
  | publish (topic payload : CStr)
  | invalid
  deriving DecidableEq

/-- The branch that the worker takes. -/
def Scanned.branch (m : Scanned) : Command :=
  if m.parsedItems = 3 ∧ m.command = ascii "SET" then .set m.topic m.payload
  else if m.parsedItems = 2 ∧ m.command = ascii "GET" then .get m.topic m.payload
  else if 1 ≤ m.parsedItems ∧ m.command = ascii "PING" then .ping
  else if 1 ≤ m.parsedItems ∧ m.command = ascii "PONG" then .pong
  else if 2 ≤ m.parsedItems ∧ m.command = ascii "SUBSCRIBE" then .subscribe m.topic m.payload
  else if 2 ≤ m.parsedItems ∧ m.command = ascii "UNSUBSCRIBE" then .unsubscribe m.topic
  else if m.parsedItems = 3 ∧ m.command = ascii "PUBLISH" then .publish m.topic m.payload
  else .invalid

/-- The command of a message. -/
def parseCommand (message : CStr) : Command := (scanMessage message).branch

/-! ## Replies -/

/-- What fits the response buffer. -/
def response (text : CStr) : CStr := text.take 511

def deniedReply : CStr := ascii "ERROR: Access denied.\n"

def updatedReply (key : CStr) : CStr :=
  response (ascii "SUCCESS: State '" ++ key ++ ascii "' updated.\n")

def valueReply (key value : CStr) : CStr :=
  response (ascii "VALUE: " ++ key ++ ascii "=" ++ value ++ [newline])

def missingReply (key : CStr) : CStr :=
  response (ascii "ERROR: Key '" ++ key ++ ascii "' not found.\n")

def pongReply : CStr := ascii "PONG\n"

def subscribedReply (topic : CStr) : CStr :=
  response (ascii "Subscribed to " ++ topic ++ [newline])

def unsubscribedReply (topic : CStr) : CStr :=
  response (ascii "Unsubscribed from " ++ topic ++ [newline])

def publishedReply (topic : CStr) : CStr :=
  response (ascii "Published to " ++ topic ++ [newline])

def invalidReply : CStr := ascii "ERROR: Invalid command.\n"

/-! ## The words of a command -/

/-- The topic or key of a command. -/
def Command.topic : Command → CStr
  | .set key _ | .get key _ => key
  | .subscribe topic _ | .unsubscribe topic | .publish topic _ => topic
  | .ping | .pong | .invalid => []

/-- Behind the command word stand a topic and a payload, as far as there are any. -/
theorem scanMessage_word {command : CStr} (hcommand : IsWord 31 command) (text : CStr) :
    scanMessage (command ++ byte ' ' :: text) =
      match scanWord 63 text with
      | none => ⟨1, command, [], []⟩
      | some (topic, rest) =>
        match scanUntil 799 newline (rest.dropWhile isspace) with
        | none => ⟨2, command, topic, []⟩
        | some (payload, _) => ⟨3, command, topic, payload⟩ := by
  have hspace : isspace (byte ' ') = true := by decide
  rw [scanMessage, hcommand.scanWord_space hspace]
  simp only [scanWord_cons_space hspace]

/-- A topic and a payload that are read as they are. -/
theorem scanMessage_words {command topic payload : CStr} (hcommand : IsWord 31 command)
    (htopic : IsWord 63 topic) (hne : payload ≠ []) (hlen : payload.length ≤ 799)
    (hhead : ∀ b ∈ payload.head?, isspace b = false) (hnewline : newline ∉ payload) :
    scanMessage (command ++ byte ' ' :: (topic ++ byte ' ' :: payload)) =
      ⟨3, command, topic, payload⟩ := by
  have hspace : isspace (byte ' ') = true := by decide
  rw [scanMessage_word hcommand, htopic.scanWord_space hspace]
  simp only [List.dropWhile_cons_of_pos hspace, dropWhile_isspace_eq_self hhead,
    scanUntil_self hne hlen hnewline]

/-- A command has the topic that was converted, or none. -/
theorem Scanned.topic_branch (m : Scanned) : m.branch.topic = m.topic ∨ m.branch.topic = [] := by
  simp only [Scanned.branch]
  split_ifs <;> simp [Command.topic]

theorem scanMessage_topic (message : CStr) :
    (scanMessage message).topic = [] ∨ IsWord 63 (scanMessage message).topic := by
  rw [scanMessage]
  split
  · exact Or.inl rfl
  · split
    · exact Or.inl rfl
    next hword =>
      have htopic := (isWord_of_scanWord hword).1
      split <;> exact Or.inr htopic

/-- The topic of a command is a word that the topic table stores whole. -/
theorem parseCommand_topic (message : CStr) :
    (parseCommand message).topic = [] ∨ IsWord 63 (parseCommand message).topic := by
  rcases (scanMessage message).topic_branch with heq | heq
  · rw [parseCommand, heq]
    exact scanMessage_topic message
  · exact Or.inl heq

theorem length_topic {topic : CStr} (htopic : topic = [] ∨ IsWord 63 topic) :
    topic.length ≤ 63 := by
  rcases htopic with rfl | hword
  · exact Nat.zero_le _
  · exact hword.length_le

theorem length_parseCommand_topic (message : CStr) : (parseCommand message).topic.length ≤ 63 :=
  length_topic (parseCommand_topic message)

/-- A subscription names a topic that the topic table stores whole. -/
theorem length_topic_of_subscribe {message topic payload : CStr}
    (h : parseCommand message = .subscribe topic payload) : topic.length ≤ 63 := by
  have hlen := length_parseCommand_topic message
  rwa [h] at hlen

example : parseCommand (ascii "SET  mode  on air") = .set (ascii "mode") (ascii "on air") := by
  decide

end AdMQ
