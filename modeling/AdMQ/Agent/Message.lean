import AdMQ.Core.Scan
import AdMQ.Broker.Serial.Serve

/-!
# From a publication to an action

A line passes through three readers and writers with field widths of their own:
the worker's `sscanf`, the formatting of `pubsub_publish` and the agent's `sscanf`.
They compose to the identity for topics without a closing bracket. A topic with
one is cut at it by the agent, which then acts on a message of another topic.
-/

namespace AdMQ

open Core

/-- The variables that the agent's message loop fills for one message. -/
structure AgentMessage where
  topic : CStr
  command : CStr
  argument : CStr
  deriving DecidableEq

/-- What is left of the buffer by `buffer[strcspn(buffer, "\r\n")] = 0`. -/
def cutLine (buffer : CStr) : CStr := buffer.takeWhile fun b => b != byte '\r' && b != newline

/-- The rest ` %63s %127[^\n]` of the format, behind the closing bracket. -/
def scanAction (topic rest : CStr) : AgentMessage :=
  match scanWord 63 rest with
  | none => ⟨topic, [], []⟩
  | some (command, rest) =>
    match scanUntil 127 newline (rest.dropWhile isspace) with
    | none => ⟨topic, command, []⟩
    | some (argument, _) => ⟨topic, command, argument⟩

/-- `sscanf(buffer, "[%63[^]]] %63s %127[^\n]", topic, command, argument)` on variables that
are empty before. -/
def scanAgentMessage (buffer : CStr) : AgentMessage :=
  match scanByte (byte '[') buffer with
  | none => ⟨[], [], []⟩
  | some rest =>
    match scanUntil 63 (byte ']') rest with
    | none => ⟨[], [], []⟩
    | some (topic, rest) =>
      match scanByte (byte ']') rest with
      | none => ⟨topic, [], []⟩
      | some rest => scanAction topic rest

/-- How many bytes one `SSL_read` of the message loop takes. -/
def agentReadSize : Nat := 1023

/-- The message of one read: the bytes behind it in the buffer are zero. -/
def agentMessage (bytes : List UInt8) : AgentMessage :=
  scanAgentMessage (cutLine (cstr (bytes.take agentReadSize)))

/-- The agent looks for an action to execute. -/
def AgentMessage.Executes (m : AgentMessage) (commandGroup : CStr) : Prop :=
  m.topic = commandGroup ∧ 0 < m.topic.length ∧ 0 < m.command.length

instance (m : AgentMessage) (commandGroup : CStr) : Decidable (m.Executes commandGroup) :=
  inferInstanceAs (Decidable (_ ∧ _ ∧ _))

/-! ## The formatted message -/

/-- The text that `snprintf` is given, without its newline. -/
def messageText (topicName message : CStr) : CStr :=
  ascii "[" ++ topicName ++ ascii "] " ++ message

/-- What the formats of the worker guarantee for a publication. -/
structure Publishable (topic payload : CStr) : Prop where
  isWord_topic : IsWord 63 topic
  nul_topic : 0 ∉ topic
  payload_ne_nil : payload ≠ []
  length_payload : payload.length ≤ 799
  head?_payload : ∀ b ∈ payload.head?, isspace b = false
  nul_payload : 0 ∉ payload
  return_payload : byte '\r' ∉ payload
  newline_payload : newline ∉ payload

variable {topic command argument payload : CStr}

theorem mem_messageText {b : UInt8} : b ∈ messageText topic payload ↔
    b = byte '[' ∨ b ∈ topic ∨ b = byte ']' ∨ b = byte ' ' ∨ b ∈ payload := by
  simp [messageText, ascii]

theorem length_messageText (topic payload : CStr) :
    (messageText topic payload).length = topic.length + payload.length + 3 := by
  simp [messageText, ascii]
  omega

/-- The text with its newline fits the buffer of `pubsub_publish` and one read of the agent. -/
theorem Publishable.length_le (h : Publishable topic payload) :
    (messageText topic payload ++ [newline]).length ≤ agentReadSize := by
  have ht := h.isWord_topic.length_le
  have hp := h.length_payload
  rw [List.length_append, length_messageText, List.length_singleton, agentReadSize]
  omega

theorem Publishable.formattedMsg_eq (h : Publishable topic payload) :
    formattedMsg topic payload = messageText topic payload ++ [newline] :=
  List.take_of_length_le h.length_le

/-- Neither a NUL nor the end of a line stands inside the text. -/
theorem Publishable.mem_messageText (h : Publishable topic payload) :
    ∀ b ∈ messageText topic payload, b ≠ 0 ∧ b ≠ byte '\r' ∧ b ≠ newline := by
  intro b hb
  rcases AdMQ.mem_messageText.mp hb with rfl | hb | rfl | rfl | hb
  · decide
  · refine ⟨?_, ?_, ?_⟩
    · rintro rfl
      exact h.nul_topic hb
    · rintro rfl
      exact h.isWord_topic.notMem (by decide) hb
    · rintro rfl
      exact h.isWord_topic.notMem (by decide) hb
  · decide
  · decide
  · refine ⟨?_, ?_, ?_⟩
    · rintro rfl
      exact h.nul_payload hb
    · rintro rfl
      exact h.return_payload hb
    · rintro rfl
      exact h.newline_payload hb

/-- The agent's conversions see the text as it was formatted, without its newline. -/
theorem Publishable.agentMessage_eq (h : Publishable topic payload) :
    agentMessage (formattedMsg topic payload) = scanAgentMessage (messageText topic payload) := by
  have hnul : 0 ∉ messageText topic payload ++ [newline] := by
    rw [List.mem_append, List.mem_singleton]
    rintro (h0 | h0)
    · exact (h.mem_messageText 0 h0).1 rfl
    · exact absurd h0 (by decide)
  have hcut : cutLine (messageText topic payload ++ [newline]) = messageText topic payload := by
    refine takeWhile_append_stop ?_ (by simp)
    intro b hb
    obtain ⟨-, hreturn, hnewline⟩ := h.mem_messageText b hb
    simp [hreturn, hnewline]
  rw [agentMessage, h.formattedMsg_eq, List.take_of_length_le h.length_le, cstr_eq_self hnul, hcut]

/-! ## What the agent reads -/

/-- Behind the opening bracket the agent reads up to the first closing one. -/
theorem scanAgentMessage_bracket (hne : topic ≠ []) (hlen : topic.length ≤ 63)
    (hb : byte ']' ∉ topic) (rest : CStr) :
    scanAgentMessage (byte '[' :: (topic ++ byte ']' :: rest)) = scanAction topic rest := by
  have hscan : scanUntil 63 (byte ']') (topic ++ byte ']' :: rest) =
      some (topic, byte ']' :: rest) := scanUntil_append hne hlen hb (by simp)
  simp only [scanAgentMessage, scanByte_cons_self, hscan]

/-- A command and an argument behind the bracket. -/
theorem scanAction_append (hcommand : IsWord 63 command) (hlen : argument.length ≤ 127)
    (hnewline : newline ∉ argument) (hhead : ∀ b ∈ argument.head?, isspace b = false)
    (topic : CStr) :
    scanAction topic (byte ' ' :: (command ++ byte ' ' :: argument)) =
      ⟨topic, command, argument⟩ := by
  have hspace : isspace (byte ' ') = true := by decide
  have hrest : (byte ' ' :: argument).dropWhile isspace = argument := by
    rw [List.dropWhile_cons_of_pos hspace, dropWhile_isspace_eq_self hhead]
  rw [scanAction, scanWord_cons_space hspace, hcommand.scanWord_space hspace]
  simp only [hrest]
  by_cases hne : argument = []
  · simp [hne]
  · rw [scanUntil_self hne hlen hnewline]

@[simp] theorem topic_scanAction (topic rest : CStr) : (scanAction topic rest).topic = topic := by
  rw [scanAction]
  split
  · rfl
  · split <;> rfl

/-- There is a command unless only white space is left. -/
theorem command_scanAction_ne_nil {rest : CStr} {c : UInt8} (hc : c ∈ rest)
    (hspace : isspace c = false) (topic : CStr) : (scanAction topic rest).command ≠ [] := by
  obtain ⟨word, left, hword⟩ := exists_scanWord (w := 63) (by decide) hc hspace
  have hne := (isWord_of_scanWord hword).1.ne_nil
  rw [scanAction, hword]
  simp only
  split <;> exact hne

/-- The agent's topic ends at the first closing bracket of the published one, and there is
always something to take as the command. -/
theorem Publishable.scanAgentMessage_topic (h : Publishable topic payload) :
    (scanAgentMessage (messageText topic payload)).topic = topic.takeWhile (· != byte ']') ∧
    ((scanAgentMessage (messageText topic payload)).topic ≠ [] →
      (scanAgentMessage (messageText topic payload)).command ≠ []) := by
  have hlen := h.isWord_topic.length_le
  have hbracket : isspace (byte ']') = false := by decide
  by_cases hb : byte ']' ∈ topic
  · obtain ⟨group, rest, rfl, hgroup⟩ := List.eq_append_cons_of_mem hb
    have htext : messageText (group ++ byte ']' :: rest) payload =
        byte '[' :: (group ++ byte ']' :: (rest ++ (byte ']' :: byte ' ' :: payload))) := by
      simp [messageText, ascii]
    rw [htext, takeWhile_append_stop (bne_of_notMem hgroup) (by simp)]
    by_cases hne : group = []
    · subst hne
      simp [scanAgentMessage, scanUntil_cons_self]
    · rw [List.length_append] at hlen
      rw [scanAgentMessage_bracket hne (by omega) hgroup]
      exact ⟨topic_scanAction .., fun _ =>
        command_scanAction_ne_nil (c := byte ']') (by simp) hbracket group⟩
  · have htext : messageText topic payload =
        byte '[' :: (topic ++ byte ']' :: (byte ' ' :: payload)) := by
      simp [messageText, ascii]
    obtain ⟨c, tail, hpayload⟩ := List.exists_cons_of_ne_nil h.payload_ne_nil
    have hc : isspace c = false := h.head?_payload c (by simp [hpayload])
    rw [htext, scanAgentMessage_bracket h.isWord_topic.ne_nil hlen hb,
      List.takeWhile_eq_self_iff.mpr (bne_of_notMem hb)]
    exact ⟨topic_scanAction .., fun _ =>
      command_scanAction_ne_nil (c := c) (by simp [hpayload]) hc topic⟩

/-! ## What the worker reads -/

/-- A publication passes the worker's conversions unchanged. -/
theorem Publishable.parseCommand_eq (h : Publishable topic payload) :
    parseCommand (messageOf (cstr (ascii "PUBLISH " ++ topic ++ ascii " " ++ payload))) =
      .publish topic payload := by
  have hline : ascii "PUBLISH " ++ topic ++ ascii " " ++ payload =
      ascii "PUBLISH" ++ byte ' ' :: (topic ++ byte ' ' :: payload) := by
    simp [ascii]
  have hnul : 0 ∉ ascii "PUBLISH " ++ topic ++ ascii " " ++ payload := by
    simp only [List.mem_append, not_or]
    exact ⟨⟨⟨by decide, h.nul_topic⟩, by decide⟩, h.nul_payload⟩
  have hreturn : byte '\r' ∉ ascii "PUBLISH " ++ topic ++ ascii " " ++ payload := by
    simp only [List.mem_append, not_or]
    exact ⟨⟨⟨by decide, h.isWord_topic.notMem (by decide)⟩, by decide⟩, h.return_payload⟩
  have hword : IsWord 31 (ascii "PUBLISH") := by decide
  have hscan := scanMessage_words hword h.isWord_topic h.payload_ne_nil h.length_payload
    h.head?_payload h.newline_payload
  rw [cstr_eq_self hnul, parseCommand, messageOf,
    List.takeWhile_eq_self_iff.mpr (bne_of_notMem hreturn), hline, hscan]
  rfl

/-- The `PUBLISH` branch is taken only with three converted items. -/
theorem Scanned.eq_of_publish {m : Scanned} (h : m.branch = .publish topic payload) :
    m.parsedItems = 3 ∧ m.topic = topic ∧ m.payload = payload := by
  simp only [Scanned.branch] at h
  split_ifs at h with _ _ _ _ _ _ hpublish
  obtain ⟨htopic, hpayload⟩ := Command.publish.inj h
  exact ⟨hpublish.1, htopic, hpayload⟩

/-- The conversions behind three items. -/
theorem scanned_of_parsedItems {message : CStr} (h : (scanMessage message).parsedItems = 3) :
    ∃ command rest left last,
      scanWord 31 message = some (command, rest) ∧
      scanWord 63 rest = some ((scanMessage message).topic, left) ∧
      scanUntil 799 newline (left.dropWhile isspace) =
        some ((scanMessage message).payload, last) := by
  cases hcommand : scanWord 31 message with
  | none => simp [scanMessage, hcommand] at h
  | some first =>
    obtain ⟨command, rest⟩ := first
    cases htopic : scanWord 63 rest with
    | none => simp [scanMessage, hcommand, htopic] at h
    | some second =>
      obtain ⟨topic, left⟩ := second
      cases hpayload : scanUntil 799 newline (left.dropWhile isspace) with
      | none => simp [scanMessage, hcommand, htopic, hpayload] at h
      | some third =>
        obtain ⟨payload, last⟩ := third
        refine ⟨command, rest, left, last, rfl, ?_, ?_⟩
        · simp [scanMessage, hcommand, htopic, hpayload]
        · simp [scanMessage, hcommand, htopic, hpayload]

/-- Whatever the worker's `PUBLISH` branch accepts can be formatted and read back. -/
theorem publishable_of_parseCommand {line : CStr} (hnul : 0 ∉ line)
    (h : parseCommand (messageOf line) = .publish topic payload) : Publishable topic payload := by
  obtain ⟨hitems, rfl, rfl⟩ := Scanned.eq_of_publish h
  obtain ⟨command, rest, left, last, hcommand, htopic, hpayload⟩ := scanned_of_parsedItems hitems
  obtain ⟨-, blanks, hmessage⟩ := isWord_of_scanWord hcommand
  obtain ⟨hword, blanks', hrest⟩ := isWord_of_scanWord htopic
  obtain ⟨hne, hlen, hnewline, hleft⟩ := of_scanUntil hpayload
  have hhead := head?_dropWhile_isspace left
  -- every byte of the topic and of the payload is one of the line, before its return character
  have hmem : ∀ b ∈ rest, b ∈ messageOf line := by
    intro b hb
    rw [hmessage]
    simp [hb]
  have htopicMem : ∀ b ∈ (scanMessage (messageOf line)).topic, b ∈ messageOf line := by
    intro b hb
    apply hmem
    rw [hrest]
    simp [hb]
  have hpayloadMem : ∀ b ∈ (scanMessage (messageOf line)).payload, b ∈ messageOf line := by
    intro b hb
    apply hmem
    have hbleft : b ∈ left := (List.dropWhile_sublist isspace).subset (by rw [hleft]; simp [hb])
    rw [hrest]
    simp [hbleft]
  have hline : ∀ b ∈ messageOf line, b ∈ line := fun b hb => (List.takeWhile_subset _) hb
  refine ⟨hword, fun h0 => hnul (hline 0 (htopicMem 0 h0)), hne, hlen, ?_,
    fun h0 => hnul (hline 0 (hpayloadMem 0 h0)), ?_, hnewline⟩
  · intro b hb
    refine hhead b ?_
    rw [hleft]
    obtain ⟨c, tail, hcons⟩ := List.exists_cons_of_ne_nil hne
    rw [hcons] at hb ⊢
    exact hb
  · intro hreturn
    simpa using List.mem_takeWhile_imp (hpayloadMem _ hreturn)

/-! ## The two readers against each other -/

/-- A command and its argument make a payload. -/
theorem publishable_action (htopic : IsWord 63 topic) (hcommand : IsWord 63 command)
    (hlen : argument.length ≤ 127) (hnul : 0 ∉ topic ∧ 0 ∉ command ∧ 0 ∉ argument)
    (hreturn : byte '\r' ∉ argument) (hnewline : newline ∉ argument) :
    Publishable topic (command ++ byte ' ' :: argument) where
  isWord_topic := htopic
  nul_topic := hnul.1
  payload_ne_nil := by simp
  length_payload := by
    have hle := hcommand.length_le
    simp only [List.length_append, List.length_cons]
    omega
  head?_payload := hcommand.head?
  nul_payload := by
    simp only [List.mem_append, List.mem_cons, not_or]
    exact ⟨hnul.2.1, by decide, hnul.2.2⟩
  return_payload := by
    simp only [List.mem_append, List.mem_cons, not_or]
    exact ⟨hcommand.notMem (by decide), by decide, hreturn⟩
  newline_payload := by
    simp only [List.mem_append, List.mem_cons, not_or]
    exact ⟨hcommand.notMem (by decide), by decide, hnewline⟩

/-- The line `PUBLISH topic command argument` reaches the agent as that topic, command and
argument: no field width cuts it, the formatted message is whole and fits one read. -/
theorem publish_roundtrip (topic command argument : CStr) (htopic : IsWord 63 topic)
    (hbracket : byte ']' ∉ topic) (hcommand : IsWord 63 command) (hlen : argument.length ≤ 127)
    (hhead : ∀ b ∈ argument.head?, isspace b = false)
    (hnul : 0 ∉ topic ∧ 0 ∉ command ∧ 0 ∉ argument) (hreturn : byte '\r' ∉ argument)
    (hnewline : newline ∉ argument) :
    ∃ payload,
      parseCommand (messageOf (cstr (ascii "PUBLISH " ++ topic ++ ascii " " ++ command ++
        ascii " " ++ argument))) = .publish topic payload ∧
      formattedMsg topic payload = ascii "[" ++ topic ++ ascii "] " ++ payload ++ [newline] ∧
      (formattedMsg topic payload).length ≤ 1023 ∧
      agentMessage (formattedMsg topic payload) = ⟨topic, command, argument⟩ := by
  have h := publishable_action htopic hcommand hlen hnul hreturn hnewline
  have hline : ascii "PUBLISH " ++ topic ++ ascii " " ++ command ++ ascii " " ++ argument =
      ascii "PUBLISH " ++ topic ++ ascii " " ++ (command ++ byte ' ' :: argument) := by
    simp [ascii]
  have htext : messageText topic (command ++ byte ' ' :: argument) =
      byte '[' :: (topic ++ byte ']' :: (byte ' ' :: (command ++ byte ' ' :: argument))) := by
    simp [messageText, ascii]
  refine ⟨command ++ byte ' ' :: argument, ?_, h.formattedMsg_eq, ?_, ?_⟩
  · rw [hline]
    exact h.parseCommand_eq
  · rw [h.formattedMsg_eq]
    exact h.length_le
  · rw [h.agentMessage_eq, htext, scanAgentMessage_bracket htopic.ne_nil htopic.length_le hbracket,
      scanAction_append hcommand hlen hnewline hhead]

/-- A command with an argument of several words. -/
theorem publish_roundtrip_restart :
    ∃ payload,
      parseCommand (messageOf (cstr (ascii "PUBLISH " ++ ascii "CMD-GRP-1" ++ ascii " " ++
        ascii "restart" ++ ascii " " ++ ascii "web server"))) =
        .publish (ascii "CMD-GRP-1") payload ∧
      agentMessage (formattedMsg (ascii "CMD-GRP-1") payload) =
        ⟨ascii "CMD-GRP-1", ascii "restart", ascii "web server"⟩ := by
  have hhead : ∀ b ∈ (ascii "web server").head?, isspace b = false := by
    intro b hb
    obtain rfl : byte 'w' = b := Option.some.inj hb
    decide
  obtain ⟨payload, hparse, -, -, hagent⟩ := publish_roundtrip (ascii "CMD-GRP-1") (ascii "restart")
    (ascii "web server") (by decide) (by decide) (by decide) (by decide) hhead (by decide)
    (by decide) (by decide)
  exact ⟨payload, hparse, hagent⟩

/-- A command word of non-whitespace bytes with a NUL among them. -/
def splitCommand : List UInt8 := ascii "re" ++ 0 :: ascii "start"

/-- The line that publishes it. -/
def splitLine : List UInt8 :=
  ascii "PUBLISH " ++ ascii "news" ++ ascii " " ++ splitCommand ++ ascii " " ++ ascii "web" ++
    [newline]

/-- The end of a line is looked for in a string, which ends at the NUL: the line is never taken
out of the buffer, and whoever sends it publishes nothing. -/
theorem split_command_unpublished :
    IsWord 63 splitCommand ∧ (receiveAll [splitLine] .fresh).1 = [] ∧
      ∀ (b : Tables) (sender : Sender),
        (b.serveTask sender .fresh splitLine).1 = ⟨b, [], []⟩ := by
  have hroom : ClientBuffer.fresh.len + splitLine.length < bufferSize := by decide
  have hnl : newline ∉ cstr (ClientBuffer.fresh.content ++ splitLine) := by decide +kernel
  refine ⟨by decide, ?_, fun b sender => b.serveTask_eq_nothing sender hroom hnl⟩
  rw [receiveAll, receiveAll, receive_eq_nil hroom hnl]
  rfl

/-- When the agent acts on a publication. -/
theorem Publishable.executes_iff (h : Publishable topic payload) (commandGroup : CStr) :
    (agentMessage (formattedMsg topic payload)).Executes commandGroup ↔
      commandGroup ≠ [] ∧ topic.takeWhile (· != byte ']') = commandGroup := by
  obtain ⟨htopic, hcommand⟩ := h.scanAgentMessage_topic
  rw [h.agentMessage_eq, AgentMessage.Executes, htopic, List.length_pos_iff, List.length_pos_iff]
  rw [htopic] at hcommand
  constructor
  · rintro ⟨rfl, hne, -⟩
    exact ⟨hne, rfl⟩
  · rintro ⟨hne, rfl⟩
    exact ⟨rfl, hne, hcommand hne⟩

/-- For every line that the worker publishes: the agent acts on it only if it was published on
the agent's group, exactly unless the topic goes on behind the group with a closing bracket. -/
theorem topic_authentic_iff (line : List UInt8) (topic payload : CStr)
    (h : parseCommand (messageOf (cstr line)) = .publish topic payload) (commandGroup : CStr) :
    ((agentMessage (formattedMsg topic payload)).Executes commandGroup → topic = commandGroup) ↔
      commandGroup = [] ∨ byte ']' ∈ commandGroup ∨ ¬ commandGroup ++ [byte ']'] <+: topic := by
  rw [(publishable_of_parseCommand (nul_notMem_cstr line) h).executes_iff, takeWhile_bne_eq_iff]
  constructor
  · intro hauth
    by_cases hne : commandGroup = []
    · exact .inl hne
    · by_cases hb : byte ']' ∈ commandGroup
      · exact .inr (.inl hb)
      · refine .inr (.inr ?_)
        intro hlonger
        obtain rfl := hauth ⟨hne, hb, .inr hlonger⟩
        have hlen := hlonger.length_le
        rw [List.length_append, List.length_singleton] at hlen
        omega
  · rintro (hnil | hb | hshort) ⟨hne, hnb, heq | hlonger⟩
    · exact absurd hnil hne
    · exact absurd hnil hne
    · exact absurd hb hnb
    · exact absurd hb hnb
    · exact heq
    · exact absurd hlonger hshort

/-- A group whose name another one continues. -/
theorem topic_authentic_iff_longer :
    parseCommand (messageOf (cstr (ascii "PUBLISH CMD-GRP-10 restart"))) =
      .publish (ascii "CMD-GRP-10") (ascii "restart") ∧
    ¬ (agentMessage (formattedMsg (ascii "CMD-GRP-10") (ascii "restart"))).Executes
      (ascii "CMD-GRP-1") := by
  have hparse : parseCommand (messageOf (cstr (ascii "PUBLISH CMD-GRP-10 restart"))) =
      .publish (ascii "CMD-GRP-10") (ascii "restart") := by decide
  refine ⟨hparse, ?_⟩
  intro hexec
  have hsame := (topic_authentic_iff _ _ _ hparse (ascii "CMD-GRP-1")).mpr
    (.inr (.inr (by decide))) hexec
  exact absurd hsame (by decide)

/-- A publication on another topic, on which the agent of the group acts. -/
theorem group_forged_by_bracket :
    parseCommand (messageOf (cstr (ascii "PUBLISH CMD-GRP-1]restart web"))) =
      .publish (ascii "CMD-GRP-1]restart") (ascii "web") ∧
    (agentMessage (formattedMsg (ascii "CMD-GRP-1]restart") (ascii "web"))).Executes
      (ascii "CMD-GRP-1") ∧
    ascii "CMD-GRP-1]restart" ≠ ascii "CMD-GRP-1" := by
  decide

end AdMQ
