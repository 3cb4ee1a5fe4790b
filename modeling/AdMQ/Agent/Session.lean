import AdMQ.Agent.ActionFile
import AdMQ.Agent.Message
import AdMQ.Broker.Serial.Serve
import AdMQ.Core.Atoi

/-!
# The persistent mode of the agent

An agent that stays connected subscribes to its group and to `BROADCAST` and then acts
on the messages of its group: it starts the action, or finds none. Either way it writes
a report, which is a publication on `agent-status`. Whatever was in the message, the
broker reads a report as one line with one command, and it publishes the whole text.
-/

namespace AdMQ

open Core

/-- What the message loop reads of the configuration, and the files it can open. -/
structure Station where
  commandGroup : CStr
  actionDir : CStr
  files : CStr → Option (List UInt8)
  length_group : commandGroup.length ≤ 63
  nul_group : 0 ∉ commandGroup
  newline_group : newline ∉ commandGroup

/-- What `fork` returns to the agent: a process, or a number that is not positive. -/
structure Forked where
  pid : Int
  pid_le : pid ≤ intMax

/-- `sub_msg`. -/
def subscribeRecord (commandGroup : CStr) : CStr :=
  (ascii "SUBSCRIBE " ++ commandGroup ++ [newline]).take 127

/-- `sub_broadcast`. -/
def broadcastRecord : CStr := ascii "SUBSCRIBE BROADCAST\n"

/-- `ping_msg` of `agent_ping_thread`. -/
def pingRecord : CStr := ascii "PING\n"

/-- The report of a process that was started. -/
def successReport (command : CStr) (pid : Int) : CStr :=
  (ascii "PUBLISH agent-status SUCCESS: Task '" ++ command ++ ascii "' started (PID " ++
    decimal pid ++ ascii ").\n").take 511

/-- The report of an action that was not found. -/
def unknownReport (command argument : CStr) : CStr :=
  (ascii "PUBLISH agent-status ERROR: Unknown action '" ++ command ++ ascii " " ++ argument ++
    ascii "'\n").take 511

/-- What comes of a message: the arguments of the process that was started, and the report. -/
structure Handled where
  argv : Option (List CStr)
  report : Option CStr
  deriving DecidableEq

/-- Nothing is started and nothing is written. -/
def Handled.nothing : Handled := ⟨none, none⟩

/-- The branch of a message of the agent's own group. -/
def Station.act (st : Station) (stack : CStr) (forked : Forked) (m : AgentMessage) : Handled :=
  match parseIniAction st.files stack st.actionDir m.command m.argument .zero with
  | (true, config) =>
    match config.execvpArgs with
    | none => .nothing
    | some argv =>
      if 0 < forked.pid then ⟨some argv, some (successReport m.command forked.pid)⟩ else .nothing
  | (false, _) => ⟨none, some (unknownReport m.command m.argument)⟩

/-- One iteration of the message loop on what `SSL_read` returned. -/
def Station.handle (st : Station) (stack : CStr) (forked : Forked) (bytes : List UInt8) : Handled :=
  if (agentMessage bytes).Executes st.commandGroup then st.act stack forked (agentMessage bytes)
  else .nothing

/-! ## What a message consists of -/

/-- What the conversions guarantee for the variables they fill. -/
structure AgentMessage.Clean (m : AgentMessage) : Prop where
  command : m.command ≠ [] → IsWord 63 m.command
  nul_command : 0 ∉ m.command
  length_argument : m.argument.length ≤ 127
  plain_argument : ∀ b ∈ m.argument, b ≠ 0 ∧ b ≠ byte '\r' ∧ b ≠ newline

/-- There is nothing to say about an argument that was not read. -/
theorem clean_without_argument {topic command : CStr} (hword : command ≠ [] → IsWord 63 command)
    (hnul : 0 ∉ command) : (AgentMessage.mk topic command []).Clean :=
  ⟨hword, hnul, Nat.zero_le _, List.forall_mem_nil _⟩

theorem clean_nothing (topic : CStr) : (AgentMessage.mk topic [] []).Clean :=
  clean_without_argument (fun h => absurd rfl h) List.not_mem_nil

theorem clean_scanAction (topic : CStr) {rest : CStr}
    (hrest : ∀ b ∈ rest, b ≠ 0 ∧ b ≠ byte '\r' ∧ b ≠ newline) : (scanAction topic rest).Clean := by
  cases hword : scanWord 63 rest with
  | none =>
    rw [scanAction, hword]
    exact clean_nothing topic
  | some first =>
    obtain ⟨command, left⟩ := first
    obtain ⟨hcommand, blanks, hsplit⟩ := isWord_of_scanWord hword
    have hmem : ∀ b ∈ command ++ left, b ∈ rest := by
      intro b hb
      rw [hsplit]
      exact List.mem_append_right _ hb
    have hnul : 0 ∉ command := fun h => (hrest 0 (hmem 0 (List.mem_append_left _ h))).1 rfl
    rw [scanAction, hword]
    simp only
    cases huntil : scanUntil 127 newline (left.dropWhile isspace) with
    | none => exact clean_without_argument (fun _ => hcommand) hnul
    | some second =>
      obtain ⟨argument, last⟩ := second
      obtain ⟨-, hlen, -, hleft⟩ := of_scanUntil huntil
      refine ⟨fun _ => hcommand, hnul, hlen, ?_⟩
      intro b hb
      have hbleft : b ∈ left := (List.dropWhile_sublist isspace).subset (by rw [hleft]; simp [hb])
      exact hrest b (hmem b (List.mem_append_right _ hbleft))

/-- Whatever is read, the variables hold one line. -/
theorem clean_agentMessage (bytes : List UInt8) : (agentMessage bytes).Clean := by
  have hline : ∀ b ∈ cutLine (cstr (bytes.take agentReadSize)),
      b ≠ 0 ∧ b ≠ byte '\r' ∧ b ≠ newline := by
    intro b hb
    have hcut : b ≠ byte '\r' ∧ b ≠ newline := by simpa using List.mem_takeWhile_imp hb
    refine ⟨?_, hcut⟩
    rintro rfl
    exact nul_notMem_cstr _ (List.takeWhile_subset _ hb)
  rw [agentMessage, scanAgentMessage]
  split
  · exact clean_nothing _
  next rest hopen =>
    split
    · exact clean_nothing _
    next topic left huntil =>
      split
      · exact clean_nothing _
      next tail hclose =>
        refine clean_scanAction topic fun b hb => hline b ?_
        rw [eq_cons_of_scanByte hopen, (of_scanUntil huntil).2.2.2, eq_cons_of_scanByte hclose]
        simp [hb]

/-! ## Reports -/

/-- The topic of the reports. -/
def statusTopic : CStr := ascii "agent-status"

/-- The text of the report of a process. -/
def successText (command : CStr) (pid : Int) : CStr :=
  ascii "SUCCESS: Task '" ++ command ++ ascii "' started (PID " ++ decimal pid ++ ascii ")."

/-- The text of the report of a missing action. -/
def unknownText (command argument : CStr) : CStr :=
  ascii "ERROR: Unknown action '" ++ command ++ ascii " " ++ argument ++ ascii "'"

/-- The line that publishes a text. -/
def statusLine (payload : CStr) : CStr := ascii "PUBLISH " ++ statusTopic ++ ascii " " ++ payload

/-- A report with its text. -/
def statusRecord (payload : CStr) : CStr := statusLine payload ++ [newline]

/-- The texts that agents report. -/
inductive IsStatus : CStr → Prop where
  | success {command : CStr} {pid : Nat} (hcommand : IsWord 63 command) (hnul : 0 ∉ command)
      (hpid : pid ≤ intMax) : IsStatus (successText command pid)
  | unknown {command argument : CStr} (hcommand : IsWord 63 command) (hnul : 0 ∉ command)
      (hlen : argument.length ≤ 127)
      (hplain : ∀ b ∈ argument, b ≠ 0 ∧ b ≠ byte '\r' ∧ b ≠ newline) :
      IsStatus (unknownText command argument)

/-- A text that begins with a letter and is one short line can be published on `agent-status`. -/
theorem publishable_status {c : UInt8} {text : CStr} (hc : isspace c = false)
    (hlen : (c :: text).length ≤ 799)
    (hplain : ∀ b ∈ c :: text, b ≠ 0 ∧ b ≠ byte '\r' ∧ b ≠ newline) :
    Publishable statusTopic (c :: text) where
  isWord_topic := by decide
  nul_topic := by decide
  payload_ne_nil := List.cons_ne_nil _ _
  length_payload := hlen
  head?_payload := by simpa using hc
  nul_payload h := (hplain _ h).1 rfl
  return_payload h := (hplain _ h).2.1 rfl
  newline_payload h := (hplain _ h).2.2 rfl

theorem plain_of_all {text : CStr}
    (h : text.all (fun b => b != 0 && b != byte '\r' && b != newline) = true) :
    ∀ b ∈ text, b ≠ 0 ∧ b ≠ byte '\r' ∧ b ≠ newline := by
  intro b hb
  simpa [and_assoc] using List.all_eq_true.mp h b hb

/-- The digits of a process number end no line. -/
theorem plain_decimal (n : Nat) : ∀ b ∈ decimal n, b ≠ 0 ∧ b ≠ byte '\r' ∧ b ≠ newline := by
  intro b hb
  have hdigit : isdigit b = true := isdigit_of_mem_toDigits hb
  refine ⟨?_, ?_, ?_⟩
  · rintro rfl
    exact absurd hdigit (by decide)
  · rintro rfl
    exact absurd hdigit (by decide)
  · rintro rfl
    exact absurd hdigit (by decide)

/-- A word without NUL ends no line. -/
theorem plain_word {w : Nat} {word : CStr} (hword : IsWord w word) (hnul : 0 ∉ word) :
    ∀ b ∈ word, b ≠ 0 ∧ b ≠ byte '\r' ∧ b ≠ newline := by
  intro b hb
  refine ⟨?_, ?_, ?_⟩
  · rintro rfl
    exact hnul hb
  · rintro rfl
    exact hword.notMem (by decide) hb
  · rintro rfl
    exact hword.notMem (by decide) hb

/-- The worker takes every report for a publication of its whole text. -/
theorem IsStatus.publishable {payload : CStr} (h : IsStatus payload) :
    Publishable statusTopic payload := by
  cases h with
  | @success command pid hcommand hnul hpid =>
    refine publishable_status (c := byte 'S') (by decide) ?_ ?_
    · change (successText command pid).length ≤ 799
      have hlen := hcommand.length_le
      have hdigits := length_decimal_le hpid
      simp only [successText, List.length_append, ascii, List.length_map]
      change 15 + _ + 15 + _ + 2 ≤ 799
      omega
    · change ∀ b ∈ successText command pid, _
      simp only [successText, List.forall_mem_append]
      exact ⟨⟨⟨⟨plain_of_all rfl, plain_word hcommand hnul⟩, plain_of_all rfl⟩, plain_decimal pid⟩,
        plain_of_all rfl⟩
  | @unknown command argument hcommand hnul hlen hplain =>
    refine publishable_status (c := byte 'E') (by decide) ?_ ?_
    · change (unknownText command argument).length ≤ 799
      have hlen' := hcommand.length_le
      simp only [unknownText, List.length_append, ascii, List.length_map]
      change 23 + _ + 1 + _ + 1 ≤ 799
      omega
    · change ∀ b ∈ unknownText command argument, _
      simp only [unknownText, List.forall_mem_append]
      exact ⟨⟨⟨⟨plain_of_all rfl, plain_word hcommand hnul⟩, plain_of_all rfl⟩, hplain⟩,
        plain_of_all rfl⟩

/-- No report is cut by the buffer it is formatted in. -/
theorem successReport_eq {command : CStr} {pid : Nat} (hlen : command.length ≤ 63)
    (hpid : pid ≤ intMax) : successReport command pid = statusRecord (successText command pid) := by
  have hdigits := length_decimal_le hpid
  rw [successReport, List.take_of_length_le]
  · simp [statusRecord, statusLine, successText, statusTopic, ascii, newline]
  · simp only [List.length_append, ascii, List.length_map]
    change 36 + _ + 15 + _ + 3 ≤ 511
    omega

theorem unknownReport_eq {command argument : CStr} (hlen : command.length ≤ 63)
    (hlen' : argument.length ≤ 127) :
    unknownReport command argument = statusRecord (unknownText command argument) := by
  rw [unknownReport, List.take_of_length_le]
  · simp [statusRecord, statusLine, unknownText, statusTopic, ascii, newline]
  · simp only [List.length_append, ascii, List.length_map]
    change 44 + _ + 1 + _ + 2 ≤ 511
    omega

/-- What a message may lead to. -/
inductive Station.Answer (st : Station) (forked : Forked) (m : AgentMessage) : Handled → Prop where
  | silent : Answer st forked m .nothing
  | started {argv : List CStr} (hexec : m.Executes st.commandGroup)
      (hstatus : IsStatus (successText m.command forked.pid)) :
      Answer st forked m ⟨some argv, some (statusRecord (successText m.command forked.pid))⟩
  | unknown (hexec : m.Executes st.commandGroup)
      (hstatus : IsStatus (unknownText m.command m.argument)) :
      Answer st forked m ⟨none, some (statusRecord (unknownText m.command m.argument))⟩

/-- Every message is answered by one report or by none, and only by the agents of its group. -/
theorem Station.answer_handle (st : Station) (stack : CStr) (forked : Forked)
    (bytes : List UInt8) :
    st.Answer forked (agentMessage bytes) (st.handle stack forked bytes) := by
  rw [handle]
  split
  next hexec =>
    obtain ⟨hword, hnul, hlen, hplain⟩ := clean_agentMessage bytes
    have hcommand := hword (List.ne_nil_of_length_pos hexec.2.2)
    rw [act]
    split
    · split
      · exact .silent
      next argv _ =>
        split
        next hpid =>
          obtain ⟨n, hn⟩ := Int.eq_ofNat_of_zero_le hpid.le
          have hmax : n ≤ intMax := by
            have hle := forked.pid_le
            omega
          have hstatus : IsStatus (successText (agentMessage bytes).command forked.pid) := by
            rw [hn]
            exact .success hcommand hnul hmax
          have hreport : successReport (agentMessage bytes).command forked.pid =
              statusRecord (successText (agentMessage bytes).command forked.pid) := by
            rw [hn]
            exact successReport_eq hcommand.length_le hmax
          rw [hreport]
          exact .started hexec hstatus
        · exact .silent
    · rw [unknownReport_eq hcommand.length_le hlen]
      exact .unknown hexec (.unknown hcommand hnul hlen hplain)
  · exact .silent

/-! ## The broker reads a report -/

/-- A record of one line, on a buffer in which nothing is waiting. -/
theorem receive_line {buffer : ClientBuffer} (hempty : buffer.len = 0) {line : CStr}
    (hlen : line.length ≤ 1022) (hnul : 0 ∉ line) (hnewline : newline ∉ line) :
    (receive buffer (line ++ [newline])).1 = [line] ∧
    (receive buffer (line ++ [newline])).2.len = 0 := by
  have hcontent : buffer.content = [] := by rw [ClientBuffer.content, hempty, List.take_zero]
  have hnone : newline ∉ ([] : CStr) := List.not_mem_nil
  have hlines : completeLines (buffer.content ++ (line ++ [newline])) = [line] := by
    rw [hcontent, List.nil_append, completeLines_line hnewline, completeLines_last hnone]
  have hnul' : 0 ∉ buffer.content ++ (line ++ [newline]) := by
    rw [hcontent, List.nil_append, List.mem_append, List.mem_singleton, not_or]
    exact ⟨hnul, by decide⟩
  have hfits : ∀ l ∈ completeLines (buffer.content ++ (line ++ [newline])), l.length ≤ 1023 := by
    rw [hlines, List.forall_mem_singleton]
    omega
  have hchunk : (line ++ [newline]).length ≤ 1023 := by
    rw [List.length_append, List.length_singleton]
    omega
  obtain ⟨hreceived, hleft⟩ := receive_content (by omega) hchunk hnul' hfits
  refine ⟨hreceived.trans hlines, ?_⟩
  rw [← ClientBuffer.length_content, hleft, hcontent, List.nil_append, unterminated_line hnewline,
    unterminated_last hnone, List.length_nil]

/-- A line that is read whole, as one command. -/
structure CommandLine (line : CStr) (cmd : Command) : Prop where
  length_le : line.length ≤ 1022
  nul : 0 ∉ line
  newline : newline ∉ line
  ne_nil : messageOf line ≠ []
  parse : parseCommand (messageOf line) = cmd

theorem CommandLine.serveLine {line : CStr} {cmd : Command} (h : CommandLine line cmd) (b : Tables)
    (sender : Sender) : b.serveLine sender line = b.execute sender cmd := by
  rw [Tables.serveLine, if_neg h.ne_nil, h.parse]

theorem Tables.serveLines_singleton (b : Tables) (sender : Sender) (line : CStr) :
    b.serveLines sender [line] = b.serveLine sender line := by
  simp [serveLines]

/-- A task with one such line executes the command and leaves nothing waiting. -/
theorem CommandLine.serveTask {line : CStr} {cmd : Command} (h : CommandLine line cmd) (b : Tables)
    (sender : Sender) {buffer : ClientBuffer} (hempty : buffer.len = 0) :
    (b.serveTask sender buffer (line ++ [Core.newline])).1 = b.execute sender cmd ∧
    (b.serveTask sender buffer (line ++ [Core.newline])).2.len = 0 := by
  obtain ⟨hlines, hleft⟩ := receive_line hempty h.length_le h.nul h.newline
  refine ⟨?_, hleft⟩
  rw [Tables.serveTask, hlines]
  exact (b.serveLines_singleton sender line).trans (h.serveLine b sender)

/-- The broker reads a report as the publication of its text. -/
theorem IsStatus.commandLine {payload : CStr} (h : IsStatus payload) :
    CommandLine (statusLine payload) (.publish statusTopic payload) := by
  have hpub := h.publishable
  have hlen := hpub.length_payload
  have hnul : 0 ∉ statusLine payload := by
    rw [statusLine, List.mem_append, not_or]
    exact ⟨by decide, hpub.nul_payload⟩
  have hparse : parseCommand (messageOf (statusLine payload)) = .publish statusTopic payload := by
    have hcommand := hpub.parseCommand_eq
    rwa [← statusLine, cstr_eq_self hnul] at hcommand
  refine ⟨?_, hnul, ?_, ?_, hparse⟩
  · rw [statusLine, List.length_append]
    change 21 + _ ≤ 1022
    omega
  · rw [statusLine, List.mem_append, not_or]
    exact ⟨by decide, hpub.newline_payload⟩
  · exact List.cons_ne_nil _ _

/-- Whatever message an agent answers with a report, and in whatever state the broker reads it:
the report is one command, the publication of its whole text on `agent-status`, the receive
buffer is left empty, and the text reaches the subscribers as it was written. -/
theorem report_is_published (st : Station) (stack : CStr) (forked : Forked) (bytes : List UInt8)
    (report : CStr) (hreport : (st.handle stack forked bytes).report = some report) :
    ∃ payload,
      payload = (if (st.handle stack forked bytes).argv.isSome then
        successText (agentMessage bytes).command forked.pid
        else unknownText (agentMessage bytes).command (agentMessage bytes).argument) ∧
      (∀ (b : Tables) (sender : Sender) (buffer : ClientBuffer), buffer.len = 0 →
        (b.serveTask sender buffer report).1 = b.execute sender (.publish statusTopic payload) ∧
        (b.serveTask sender buffer report).2.len = 0) ∧
      formattedMsg statusTopic payload = messageText statusTopic payload ++ [newline] ∧
      (agentMessage (formattedMsg statusTopic payload)).topic = statusTopic := by
  have htopic {payload : CStr} (h : IsStatus payload) :
      (agentMessage (formattedMsg statusTopic payload)).topic = statusTopic := by
    rw [h.publishable.agentMessage_eq, h.publishable.scanAgentMessage_topic.1]
    decide
  have hanswer := st.answer_handle stack forked bytes
  revert hreport hanswer
  generalize st.handle stack forked bytes = handled
  intro hreport hanswer
  cases hanswer with
  | silent => cases hreport
  | started hexec hstatus =>
    obtain rfl := Option.some.inj hreport
    exact ⟨_, rfl, fun b sender buffer hempty => hstatus.commandLine.serveTask b sender hempty,
      hstatus.publishable.formattedMsg_eq, htopic hstatus⟩
  | unknown hexec hstatus =>
    obtain rfl := Option.some.inj hreport
    exact ⟨_, rfl, fun b sender buffer hempty => hstatus.commandLine.serveTask b sender hempty,
      hstatus.publishable.formattedMsg_eq, htopic hstatus⟩

theorem defaultGroup_fits : (ascii "CMD-GRP-1").length ≤ 63 ∧ 0 ∉ ascii "CMD-GRP-1" ∧
    newline ∉ ascii "CMD-GRP-1" := by decide

/-- An agent with the default configuration and no action files. -/
def bareStation : Station where
  commandGroup := ascii "CMD-GRP-1"
  actionDir := ascii "./actions"
  files _ := none
  length_group := defaultGroup_fits.1
  nul_group := defaultGroup_fits.2.1
  newline_group := defaultGroup_fits.2.2

theorem neg_one_le_intMax : (-1 : Int) ≤ intMax := by decide

/-- No process was started. -/
def notForked : Forked := ⟨-1, neg_one_le_intMax⟩

/-- A command that has no action, with a bracket and quotes in its argument. -/
theorem report_is_published_bare :
    ∃ payload, payload = unknownText (ascii "restart") (ascii "'web' ]") ∧
      formattedMsg statusTopic payload = messageText statusTopic payload ++ [newline] := by
  have hmessage : agentMessage (ascii "[CMD-GRP-1] restart 'web' ]\n") =
      ⟨ascii "CMD-GRP-1", ascii "restart", ascii "'web' ]"⟩ := by decide
  obtain ⟨payload, hpayload, -, htext, -⟩ := report_is_published bareStation [] notForked
    (ascii "[CMD-GRP-1] restart 'web' ]\n")
    (unknownReport (ascii "restart") (ascii "'web' ]")) (by decide +kernel)
  rw [hmessage, if_neg (by decide +kernel)] at hpayload
  exact ⟨payload, hpayload, htext⟩

end AdMQ
