import AdMQ.Agent.Session
import AdMQ.Core.Transition

/-!
# Agents and broker together

A fleet is the broker with its connected agents and the records on their way in both
directions, in the order in which they were written. Agents subscribe when they join,
ping, act on messages and report; the broker serves the records of one connection after
the other; an operator publishes at the command line. A task of the broker is one step,
and so is one iteration of an agent's message loop.
-/

namespace AdMQ

open Core

/-- A connected agent. -/
structure Node where
  /-- How the broker knows the connection. -/
  sender : Sender
  station : Station
  /-- The receive buffer of the connection. -/
  buffer : ClientBuffer
  /-- What the broker has written and the agent has not read. -/
  inbox : List CStr
  /-- What the agent has written and the broker has not read. -/
  outbox : List CStr
  /-- History: the messages that the operator has sent to the agent's group. -/
  ordered : List CStr
  /-- History: the messages that the agent has acted on, with what came of each. -/
  acted : List (CStr × Handled)

/-- The broker with its agents. -/
structure Fleet where
  tables : Tables
  nodes : List Node

/-- What may happen next. -/
inductive FleetAct where
  /-- An authenticated agent enters its message loop. -/
  | join (sender : Sender) (station : Station) (buffer : ClientBuffer)
  | leave (fd : Int)
  /-- `PUBLISH` at the command line. -/
  | order (topic message : CStr)
  /-- `agent_ping_thread` wakes up. -/
  | ping (fd : Int)
  /-- A worker serves the next record of a connection. -/
  | serve (fd : Int)
  /-- An agent handles the next record; what the stack holds and `fork` returns is open. -/
  | handle (fd : Int) (stack : CStr) (forked : Forked)

/-! ## The broker's side -/

/-- What is written for a line, in order: `pubsub_publish` is through before the reply. -/
def Executed.writes (e : Executed) (fd : Int) : List (Int × CStr) :=
  e.deliveries ++ e.replies.map fun text => (fd, text)

/-- The lines of a task in turn, with everything that is written meanwhile. -/
def Tables.serveWrites (b : Tables) (sender : Sender) : List CStr → Tables × List (Int × CStr)
  | [] => (b, [])
  | line :: lines =>
    let first := b.serveLine sender line
    let rest := first.tables.serveWrites sender lines
    (rest.1, first.writes sender.fd ++ rest.2)

/-- What is written to a descriptor. -/
def textsFor (fd : Int) (writes : List (Int × CStr)) : List CStr :=
  (writes.filter fun w => decide (w.1 = fd)).map Prod.snd

/-! ## The agents' side -/

namespace Node

/-- An agent at the beginning of its session. -/
def joined (sender : Sender) (station : Station) (buffer : ClientBuffer) : Node where
  sender := sender
  station := station
  buffer := buffer
  inbox := []
  outbox := [subscribeRecord station.commandGroup, broadcastRecord]
  ordered := []
  acted := []

/-- The agent will act on a record. -/
def Heeds (n : Node) (record : CStr) : Prop := (agentMessage record).Executes n.station.commandGroup

instance (n : Node) (record : CStr) : Decidable (n.Heeds record) :=
  inferInstanceAs (Decidable (AgentMessage.Executes _ _))

/-- The records that the agent will act on. -/
def heeded (n : Node) (records : List CStr) : List CStr :=
  records.filter fun r => decide (n.Heeds r)

/-- The broker has written to its connections. -/
def deliver (writes : List (Int × CStr)) (n : Node) : Node :=
  { n with inbox := n.inbox ++ textsFor n.sender.fd writes }

/-- The operator has published. -/
def order (writes : List (Int × CStr)) (n : Node) : Node :=
  { n.deliver writes with ordered := n.ordered ++ n.heeded (textsFor n.sender.fd writes) }

/-- The agent has written a record. -/
def send (record : CStr) (n : Node) : Node := { n with outbox := n.outbox ++ [record] }

/-- The broker has read the first record, with the others left. -/
def served (buffer : ClientBuffer) (rest : List CStr) (n : Node) : Node :=
  { n with buffer := buffer, outbox := rest }

/-- The agent has handled a record, with the others left. -/
def handled (stack : CStr) (forked : Forked) (record : CStr) (rest : List CStr) (n : Node) : Node :=
  let done := n.station.handle stack forked record
  { n with
    inbox := rest
    outbox := n.outbox ++ done.report.toList
    acted := n.acted ++ if n.Heeds record then [(record, done)] else [] }

end Node

namespace Fleet

/-- The descriptors of the connections. -/
def fds (f : Fleet) : List Int := f.nodes.map (·.sender.fd)

/-- The agent of a connection. -/
def node? (f : Fleet) (fd : Int) : Option Node := f.nodes.find? fun n => decide (n.sender.fd = fd)

/-- Change the agent of a connection. -/
def update (nodes : List Node) (fd : Int) (g : Node → Node) : List Node :=
  nodes.map fun n => if n.sender.fd = fd then g n else n

/-- A worker has read a record of an agent and served it. -/
def served (f : Fleet) (n : Node) (record : CStr) (rest : List CStr) : Fleet :=
  let received := receive n.buffer record
  let done := f.tables.serveWrites n.sender received.1
  ⟨done.1, (update f.nodes n.sender.fd (·.served received.2 rest)).map (·.deliver done.2)⟩

/-- One step of the fleet. -/
def step (f : Fleet) : FleetAct → Option Fleet
  | .join sender station buffer =>
    if buffer.len = 0 ∧ sender.fd ∉ f.fds then
      some { f with nodes := f.nodes ++ [.joined sender station buffer] }
    else none
  | .leave fd =>
    if fd ∈ f.fds then
      some ⟨{ f.tables with topics := pubsubUnsubscribeAll f.tables.topics fd },
        f.nodes.filter fun n => decide (n.sender.fd ≠ fd)⟩
    else none
  | .order topic message =>
    some { f with nodes := f.nodes.map (·.order (pubsubPublish f.tables.topics topic message)) }
  | .ping fd =>
    if fd ∈ f.fds then some { f with nodes := update f.nodes fd (·.send pingRecord) } else none
  | .serve fd =>
    match f.node? fd with
    | none => none
    | some n =>
      match n.outbox with
      | [] => none
      | record :: rest => some (f.served n record rest)
  | .handle fd stack forked =>
    match f.node? fd with
    | none => none
    | some n =>
      match n.inbox with
      | [] => none
      | record :: rest =>
        some { f with nodes := update f.nodes fd (·.handled stack forked record rest) }

end Fleet

/-- The steps that nobody outside of the fleet takes. -/
def FleetAct.inner : FleetAct → Bool
  | .serve _ | .handle .. => true
  | _ => false

/-! ## What agents write -/

/-- The records that the program of an agent writes. -/
inductive Station.Writes (st : Station) : CStr → Prop where
  | subscribe : st.Writes (subscribeRecord st.commandGroup)
  | broadcast : st.Writes broadcastRecord
  | ping : st.Writes pingRecord
  | report {payload : CStr} (h : IsStatus payload) : st.Writes (statusRecord payload)

/-- No reply of the broker looks like a message. -/
theorem Tables.replies_execute (b : Tables) (sender : Sender) (cmd : Command) :
    (b.execute sender cmd).replies.length ≤ 1 ∧
    ∀ text ∈ (b.execute sender cmd).replies, ∃ c rest, text = c :: rest ∧ c ≠ byte '[' := by
  have hanswer (b : Tables) {text : CStr} (h : ∃ c rest, text = c :: rest ∧ c ≠ byte '[') :
      (b.answer text).replies.length ≤ 1 ∧
      ∀ t ∈ (b.answer text).replies, ∃ c rest, t = c :: rest ∧ c ≠ byte '[' :=
    ⟨Nat.le_refl 1, List.forall_mem_singleton.mpr h⟩
  have hdenied : ∃ c rest, deniedReply = c :: rest ∧ c ≠ byte '[' := ⟨_, _, rfl, by decide⟩
  cases cmd with
  | set key value =>
    rw [execute]
    split
    · exact hanswer _ ⟨_, _, rfl, by decide⟩
    · exact hanswer _ hdenied
  | get key payload =>
    rw [execute]
    refine hanswer _ ?_
    split
    · exact ⟨_, _, rfl, by decide⟩
    · exact ⟨_, _, rfl, by decide⟩
  | ping => exact hanswer _ ⟨_, _, rfl, by decide⟩
  | pong => exact ⟨Nat.zero_le 1, List.forall_mem_nil _⟩
  | subscribe topic payload =>
    rw [execute]
    split
    · exact hanswer _ ⟨_, _, rfl, by decide⟩
    · exact hanswer _ hdenied
  | unsubscribe topic =>
    rw [execute]
    split
    · exact hanswer _ ⟨_, _, rfl, by decide⟩
    · exact hanswer _ hdenied
  | publish topic payload =>
    rw [execute]
    split
    · exact ⟨Nat.le_refl 1, List.forall_mem_singleton.mpr ⟨_, _, rfl, by decide⟩⟩
    · exact hanswer _ hdenied
  | invalid => exact hanswer _ ⟨_, _, rfl, by decide⟩

/-- A text that does not begin with a bracket is no message. -/
theorem agentMessage_of_head {c : UInt8} (hc : c ≠ byte '[') (rest : CStr) :
    agentMessage (c :: rest) = ⟨[], [], []⟩ := by
  have hhead (s : CStr) (h : ∀ b ∈ s.head?, b ≠ byte '[') : scanAgentMessage s = ⟨[], [], []⟩ := by
    cases s with
    | nil => rfl
    | cons b s =>
      have hb : b ≠ byte '[' := h b rfl
      simp [scanAgentMessage, scanByte, hb]
  refine hhead _ ?_
  intro b hb
  have hmem {p : UInt8 → Bool} {s : CStr} {x : UInt8} (h : x ∈ (s.takeWhile p).head?) :
      x ∈ s.head? := by
    cases s with
    | nil => exact h
    | cons y s =>
      rw [List.takeWhile_cons] at h
      split at h
      · exact h
      · cases h
  obtain rfl : c = b := Option.some.inj (hmem (hmem hb))
  exact hc

/-- A line that publishes or unsubscribes has the word for it. -/
theorem command_of_branch {message : CStr} :
    (∀ topic payload, parseCommand message = .publish topic payload →
      (scanMessage message).command = ascii "PUBLISH") ∧
    ∀ topic, parseCommand message = .unsubscribe topic →
      (scanMessage message).command = ascii "UNSUBSCRIBE" := by
  simp only [parseCommand, Scanned.branch]
  refine ⟨fun topic payload h => ?_, fun topic h => ?_⟩
  · split_ifs at h with _ _ _ _ _ _ hpublish
    exact hpublish.2
  · split_ifs at h with _ _ _ _ _ hunsubscribe
    exact hunsubscribe.2

theorem command_scanMessage_word {command : CStr} (hcommand : IsWord 31 command) (text : CStr) :
    (scanMessage (command ++ byte ' ' :: text)).command = command := by
  rw [scanMessage_word hcommand]
  split
  · rfl
  · split <;> rfl

/-- A record with one command, on a buffer in which nothing is waiting. -/
theorem CommandLine.serveWrites {line : CStr} {cmd : Command} (h : CommandLine line cmd)
    (b : Tables) (sender : Sender) {buffer : ClientBuffer} (hempty : buffer.len = 0) :
    (receive buffer (line ++ [Core.newline])).2.len = 0 ∧
    b.serveWrites sender (receive buffer (line ++ [Core.newline])).1 =
      ((b.execute sender cmd).tables, (b.execute sender cmd).writes sender.fd) := by
  obtain ⟨hlines, hleft⟩ := receive_line hempty h.length_le h.nul h.newline
  refine ⟨hleft, ?_⟩
  rw [hlines]
  simp only [Tables.serveWrites, h.serveLine, List.append_nil]

/-- A group is asked for in one line. -/
theorem subscribeRecord_eq {group : CStr} (hlen : group.length ≤ 63) :
    subscribeRecord group = ascii "SUBSCRIBE " ++ group ++ [newline] := by
  refine List.take_of_length_le ?_
  simp only [List.length_append, List.length_singleton]
  change 10 + _ + 1 ≤ 127
  omega

/-- Whatever the group is, the broker takes the line for a subscription if anything. -/
theorem parseCommand_subscribe_ne (group : CStr) :
    (∀ topic payload,
      parseCommand (messageOf (ascii "SUBSCRIBE " ++ group)) ≠ .publish topic payload) ∧
    ∀ topic, parseCommand (messageOf (ascii "SUBSCRIBE " ++ group)) ≠ .unsubscribe topic := by
  have hline : messageOf (ascii "SUBSCRIBE " ++ group) =
      ascii "SUBSCRIBE" ++ byte ' ' :: messageOf group := by
    have hreturn : byte '\r' ∉ ascii "SUBSCRIBE " := by decide
    rw [messageOf, List.takeWhile_append_of_pos (bne_of_notMem hreturn)]
    rfl
  have hcommand : (scanMessage (messageOf (ascii "SUBSCRIBE " ++ group))).command =
      ascii "SUBSCRIBE" := by
    rw [hline, command_scanMessage_word (by decide)]
  refine ⟨fun topic payload h => ?_, fun topic h => ?_⟩
  · exact absurd (hcommand.symm.trans (command_of_branch.1 topic payload h)) (by decide)
  · exact absurd (hcommand.symm.trans (command_of_branch.2 topic h)) (by decide)

/-- What the commands of agents are: they end no subscription, and publish nothing but reports. -/
structure AgentCommand (record : CStr) (cmd : Command) : Prop where
  publish : ∀ topic payload, cmd = .publish topic payload →
    topic = statusTopic ∧ IsStatus payload ∧ record = statusRecord payload
  unsubscribe : ∀ topic, cmd ≠ .unsubscribe topic

/-- Every record of an agent is one command to the broker. -/
theorem Station.Writes.commandLine {st : Station} {record : CStr} (h : st.Writes record) :
    ∃ line cmd, record = line ++ [newline] ∧ CommandLine line cmd ∧ AgentCommand record cmd := by
  cases h with
  | subscribe =>
    have hlen := st.length_group
    obtain ⟨hpublish, hunsubscribe⟩ := parseCommand_subscribe_ne st.commandGroup
    rw [subscribeRecord_eq hlen]
    refine ⟨_, _, rfl, ⟨?_, ?_, ?_, List.cons_ne_nil _ _, rfl⟩,
      fun topic payload h => absurd h (hpublish topic payload), hunsubscribe⟩
    · rw [List.length_append]
      change 10 + _ ≤ 1022
      omega
    · rw [List.mem_append, not_or]
      exact ⟨by decide, st.nul_group⟩
    · rw [List.mem_append, not_or]
      exact ⟨by decide, st.newline_group⟩
  | broadcast =>
    have hline : CommandLine (ascii "SUBSCRIBE BROADCAST") (.subscribe (ascii "BROADCAST") []) :=
      ⟨by decide, by decide, by decide, by decide, by decide⟩
    refine ⟨_, _, rfl, hline, ?_, ?_⟩
    · intro topic payload h
      cases h
    · intro topic h
      cases h
  | ping =>
    have hline : CommandLine (ascii "PING") .ping :=
      ⟨by decide, by decide, by decide, by decide, by decide⟩
    refine ⟨_, _, rfl, hline, ?_, ?_⟩
    · intro topic payload h
      cases h
    · intro topic h
      cases h
  | @report payload h =>
    refine ⟨_, _, rfl, h.commandLine, ?_, ?_⟩
    · intro topic text heq
      obtain ⟨rfl, rfl⟩ := Command.publish.inj heq
      exact ⟨rfl, h, rfl⟩
    · intro topic heq
      cases heq

/-! ## Nodes and steps -/

namespace Fleet

variable {f f' : Fleet} {fd : Int}

/-- The connection of a descriptor among the others. -/
structure At (f : Fleet) (front : List Node) (n : Node) (back : List Node) : Prop where
  nodes : f.nodes = front ++ n :: back
  front : ∀ m ∈ front, m.sender.fd ≠ n.sender.fd
  back : ∀ m ∈ back, m.sender.fd ≠ n.sender.fd

theorem At.mem {front back : List Node} {n : Node} (h : f.At front n back) : n ∈ f.nodes := by
  rw [h.nodes]
  exact List.mem_append_right _ List.mem_cons_self

/-- A descriptor belongs to one connection. -/
theorem At.eq_of_fd {front back : List Node} {n m : Node} (h : f.At front n back)
    (hm : m ∈ f.nodes) (hfd : m.sender.fd = n.sender.fd) : m = n := by
  rw [h.nodes, List.mem_append, List.mem_cons] at hm
  rcases hm with hm | rfl | hm
  · exact absurd hfd (h.front m hm)
  · rfl
  · exact absurd hfd (h.back m hm)

theorem exists_at_of_mem (hnodup : f.fds.Nodup) {n : Node} (hn : n ∈ f.nodes) :
    ∃ front back, f.At front n back := by
  obtain ⟨front, back, hnodes⟩ := List.append_of_mem hn
  have hsplit : (front.map (·.sender.fd) ++ n.sender.fd :: back.map (·.sender.fd)).Nodup := by
    rw [fds, hnodes, List.map_append, List.map_cons] at hnodup
    exact hnodup
  rw [List.nodup_middle, List.nodup_cons, List.mem_append, not_or] at hsplit
  refine ⟨front, back, hnodes, ?_, ?_⟩
  · rintro m hm heq
    exact hsplit.1.1 (heq ▸ List.mem_map_of_mem hm)
  · rintro m hm heq
    exact hsplit.1.2 (heq ▸ List.mem_map_of_mem hm)

theorem mem_of_node? {n : Node} (h : f.node? fd = some n) : n ∈ f.nodes ∧ n.sender.fd = fd :=
  ⟨List.mem_of_find?_eq_some h, by simpa using List.find?_some h⟩

/-- Every connected agent is found. -/
theorem node?_of_mem (hnodup : f.fds.Nodup) {n : Node} (hn : n ∈ f.nodes) :
    f.node? n.sender.fd = some n := by
  obtain ⟨front, back, hat⟩ := exists_at_of_mem hnodup hn
  have hfront : front.find? (fun m => decide (m.sender.fd = n.sender.fd)) = none := by
    rw [List.find?_eq_none]
    intro m hm
    simpa using hat.front m hm
  rw [node?, hat.nodes, List.find?_append, hfront, List.find?_cons]
  simp

/-- Only the agent of the connection changes. -/
theorem At.update {front back : List Node} {n : Node} (h : f.At front n back) (g : Node → Node) :
    Fleet.update f.nodes n.sender.fd g = front ++ g n :: back := by
  have hother {xs : List Node} (hxs : ∀ m ∈ xs, m.sender.fd ≠ n.sender.fd) :
      xs.map (fun m => if m.sender.fd = n.sender.fd then g m else m) = xs := by
    refine (List.map_congr_left fun m hm => if_neg (hxs m hm)).trans (List.map_id _)
  rw [Fleet.update, h.nodes, List.map_append, List.map_cons, hother h.front, hother h.back,
    if_pos rfl]

theorem fds_update (nodes : List Node) (fd : Int) (g : Node → Node)
    (hg : ∀ n, (g n).sender = n.sender) :
    (Fleet.update nodes fd g).map (·.sender.fd) = nodes.map (·.sender.fd) := by
  rw [Fleet.update, List.map_map]
  refine List.map_congr_left fun n _ => ?_
  rw [Function.comp_apply]
  split
  · rw [hg]
  · rfl

/-- Serving a record. -/
theorem exists_of_serve (hnodup : f.fds.Nodup) (h : f.step (.serve fd) = some f') :
    ∃ front n back record rest, f.At front n back ∧ n.sender.fd = fd ∧
      n.outbox = record :: rest ∧ f' = f.served n record rest := by
  rw [step] at h
  cases hn : f.node? fd with
  | none => simp [hn] at h
  | some n =>
    obtain ⟨hmem, hfd⟩ := mem_of_node? hn
    obtain ⟨front, back, hat⟩ := exists_at_of_mem hnodup hmem
    simp only [hn] at h
    cases hout : n.outbox with
    | nil => simp [hout] at h
    | cons record rest =>
      simp only [hout] at h
      exact ⟨front, n, back, record, rest, hat, hfd, hout, (Option.some.inj h).symm⟩

/-- Handling a record. -/
theorem exists_of_handle (hnodup : f.fds.Nodup) {stack : CStr} {forked : Forked}
    (h : f.step (.handle fd stack forked) = some f') :
    ∃ front n back record rest, f.At front n back ∧ n.sender.fd = fd ∧
      n.inbox = record :: rest ∧
      f' = { f with nodes := front ++ n.handled stack forked record rest :: back } := by
  rw [step] at h
  cases hn : f.node? fd with
  | none => simp [hn] at h
  | some n =>
    obtain ⟨hmem, hfd⟩ := mem_of_node? hn
    obtain ⟨front, back, hat⟩ := exists_at_of_mem hnodup hmem
    simp only [hn] at h
    cases hin : n.inbox with
    | nil => simp [hin] at h
    | cons record rest =>
      simp only [hin] at h
      refine ⟨front, n, back, record, rest, hat, hfd, hin, ?_⟩
      rw [← hat.update (·.handled stack forked record rest), hfd]
      exact (Option.some.inj h).symm

/-- What serving the first record of an agent comes to. -/
def serving (f : Fleet) (n : Node) (record : CStr) : Tables × List (Int × CStr) :=
  f.tables.serveWrites n.sender (receive n.buffer record).1

/-- What a step makes of a connected agent, and of the tables meanwhile. -/
inductive Move (f f' : Fleet) : Node → Node → Prop where
  | kept {n : Node} (hdb : f'.tables.db = f.tables.db)
      (hpolicy : f'.tables.policy = f.tables.policy) : Move f f' n n
  | ordered {n : Node} {topic message : CStr} (htables : f'.tables = f.tables) :
      Move f f' n (n.order (pubsubPublish f.tables.topics topic message))
  | pinged {n : Node} (htables : f'.tables = f.tables) : Move f f' n (n.send pingRecord)
  -- A record of another agent was served.
  | delivered {n m : Node} {record : CStr} {rest : List CStr} (hm : m ∈ f.nodes)
      (hout : m.outbox = record :: rest) (htables : f'.tables = (f.serving m record).1) :
      Move f f' n (n.deliver (f.serving m record).2)
  | served {n : Node} {record : CStr} {rest : List CStr} (hout : n.outbox = record :: rest)
      (htables : f'.tables = (f.serving n record).1) :
      Move f f' n ((n.served (receive n.buffer record).2 rest).deliver (f.serving n record).2)
  | handled {n : Node} {record : CStr} {rest : List CStr} {stack : CStr} {forked : Forked}
      (hin : n.inbox = record :: rest) (htables : f'.tables = f.tables) :
      Move f f' n (n.handled stack forked record rest)

/-- Where the agents come from that are connected after a step. -/
theorem exists_move (hnodup : f.fds.Nodup) {a : FleetAct} (hs : f.step a = some f') {n' : Node}
    (hn' : n' ∈ f'.nodes) :
    (∃ sender station buffer, a = .join sender station buffer ∧ buffer.len = 0 ∧
      n' = .joined sender station buffer) ∨ ∃ n ∈ f.nodes, Move f f' n n' := by
  cases a with
  | join sender station buffer =>
    rw [step] at hs
    split at hs
    next hnew =>
      obtain rfl := Option.some.inj hs
      rcases List.mem_append.mp hn' with hold | hjoined
      · exact .inr ⟨n', hold, .kept rfl rfl⟩
      · exact .inl ⟨sender, station, buffer, rfl, hnew.1, List.mem_singleton.mp hjoined⟩
    · cases hs
  | leave fd =>
    rw [step] at hs
    split at hs
    · obtain rfl := Option.some.inj hs
      exact .inr ⟨n', List.mem_of_mem_filter hn', .kept rfl rfl⟩
    · cases hs
  | order topic message =>
    obtain rfl := Option.some.inj hs
    obtain ⟨n, hn, rfl⟩ := List.mem_map.mp hn'
    exact .inr ⟨n, hn, .ordered rfl⟩
  | ping fd =>
    rw [step] at hs
    split at hs
    · obtain rfl := Option.some.inj hs
      obtain ⟨n, hn, rfl⟩ := List.mem_map.mp hn'
      refine .inr ⟨n, hn, ?_⟩
      split
      · exact .pinged rfl
      · exact .kept rfl rfl
    · cases hs
  | serve fd =>
    obtain ⟨front, m, back, record, rest, hat, -, hout, rfl⟩ := exists_of_serve hnodup hs
    obtain ⟨n₁, hn₁, rfl⟩ := List.mem_map.mp hn'
    obtain ⟨n, hn, rfl⟩ := List.mem_map.mp hn₁
    refine .inr ⟨n, hn, ?_⟩
    dsimp only
    split
    next hfd =>
      obtain rfl := hat.eq_of_fd hn hfd
      exact .served hout rfl
    · exact .delivered hat.mem hout rfl
  | handle fd stack forked =>
    obtain ⟨front, m, back, record, rest, hat, -, hin, rfl⟩ := exists_of_handle hnodup hs
    rw [← hat.update (·.handled stack forked record rest)] at hn'
    obtain ⟨n, hn, rfl⟩ := List.mem_map.mp hn'
    refine .inr ⟨n, hn, ?_⟩
    split
    next hfd =>
      obtain rfl := hat.eq_of_fd hn hfd
      exact .handled hin rfl
    · exact .kept rfl rfl

/-- Agents keep their program and their connection. -/
theorem Move.same {n n' : Node} (h : Move f f' n n') :
    n'.station = n.station ∧ n'.sender = n.sender := by
  cases h <;> exact ⟨rfl, rfl⟩

/-- Descriptors stay apart. -/
theorem nodup_step (hnodup : f.fds.Nodup) {a : FleetAct} (hs : f.step a = some f') :
    f'.fds.Nodup := by
  cases a with
  | join sender station buffer =>
    rw [step] at hs
    split at hs
    next hnew =>
      obtain rfl := Option.some.inj hs
      rw [fds, List.map_append, List.map_singleton]
      exact (List.perm_append_singleton _ _).nodup_iff.mpr (hnodup.cons hnew.2)
    · cases hs
  | leave fd =>
    rw [step] at hs
    split at hs
    · obtain rfl := Option.some.inj hs
      exact hnodup.sublist (List.filter_sublist.map _)
    · cases hs
  | order topic message =>
    obtain rfl := Option.some.inj hs
    rw [fds, List.map_map]
    exact hnodup
  | ping fd =>
    rw [step] at hs
    split at hs
    · obtain rfl := Option.some.inj hs
      rw [fds, fds_update f.nodes fd (·.send pingRecord) fun _ => rfl]
      exact hnodup
    · cases hs
  | serve fd =>
    obtain ⟨front, n, back, record, rest, -, -, -, rfl⟩ := exists_of_serve hnodup hs
    have hfds := fds_update f.nodes n.sender.fd (·.served (receive n.buffer record).2 rest)
      fun _ => rfl
    rw [fds, served, List.map_map]
    exact hfds ▸ hnodup
  | handle fd stack forked =>
    obtain ⟨front, n, back, record, rest, hat, -, -, rfl⟩ := exists_of_handle hnodup hs
    have hfds := fds_update f.nodes n.sender.fd (·.handled stack forked record rest) fun _ => rfl
    rw [hat.update] at hfds
    rw [fds, hfds]
    exact hnodup

/-! ## Records are whole commands -/

end Fleet

/-- The records that handling a message adds. -/
theorem Station.writes_report (st : Station) (stack : CStr) (forked : Forked) (bytes : List UInt8) :
    ∀ record ∈ (st.handle stack forked bytes).report.toList, st.Writes record := by
  have hanswer := st.answer_handle stack forked bytes
  revert hanswer
  generalize st.handle stack forked bytes = done
  intro hanswer
  cases hanswer with
  | silent => exact List.forall_mem_nil _
  | started hexec hstatus => exact List.forall_mem_singleton.mpr (.report hstatus)
  | unknown hexec hstatus => exact List.forall_mem_singleton.mpr (.report hstatus)

/-- Nothing of a record is left over, and the agent has written only what its program writes. -/
structure Node.Orderly (n : Node) : Prop where
  empty : n.buffer.len = 0
  writes : ∀ record ∈ n.outbox, n.station.Writes record

/-- A joining agent has written its subscriptions. -/
theorem Node.orderly_joined (sender : Sender) (station : Station) {buffer : ClientBuffer}
    (hempty : buffer.len = 0) : (joined sender station buffer).Orderly := by
  refine ⟨hempty, ?_⟩
  rw [joined, List.forall_mem_cons, List.forall_mem_singleton]
  exact ⟨.subscribe, .broadcast⟩

/-- Every record of an orderly agent is served as one command. -/
theorem Node.Orderly.serving {n : Node} (h : n.Orderly) {record : CStr} {rest : List CStr}
    (hout : n.outbox = record :: rest) (f : Fleet) :
    ∃ line cmd, record = line ++ [newline] ∧ CommandLine line cmd ∧ AgentCommand record cmd ∧
      (receive n.buffer record).2.len = 0 ∧ f.serving n record =
        ((f.tables.execute n.sender cmd).tables,
          (f.tables.execute n.sender cmd).writes n.sender.fd) := by
  have hwrites := h.writes record (by rw [hout]; exact List.mem_cons_self)
  obtain ⟨line, cmd, rfl, hline, hagent⟩ := hwrites.commandLine
  obtain ⟨hleft, hserved⟩ := hline.serveWrites f.tables n.sender h.empty
  exact ⟨line, cmd, rfl, hline, hagent, hleft, hserved⟩

namespace Fleet

variable {f f' : Fleet}

/-- The connections differ, and every agent is orderly. -/
structure Orderly (f : Fleet) : Prop where
  nodup : f.fds.Nodup
  nodes : ∀ n ∈ f.nodes, n.Orderly

theorem Move.orderly {n n' : Node} (h : Move f f' n n') (hn : n.Orderly) : n'.Orderly := by
  cases h with
  | kept | ordered | delivered => exact ⟨hn.empty, hn.writes⟩
  | pinged =>
    refine ⟨hn.empty, ?_⟩
    rw [Node.send, List.forall_mem_append, List.forall_mem_singleton]
    exact ⟨hn.writes, .ping⟩
  | served hout =>
    obtain ⟨-, -, -, -, -, hleft, -⟩ := hn.serving hout f
    have hwrites := hn.writes
    rw [hout, List.forall_mem_cons] at hwrites
    exact ⟨hleft, hwrites.2⟩
  | @handled record rest stack forked =>
    refine ⟨hn.empty, ?_⟩
    rw [Node.handled, List.forall_mem_append]
    exact ⟨hn.writes, n.station.writes_report stack forked record⟩

/-- Every step keeps the fleet orderly. -/
theorem Orderly.step (h : f.Orderly) {a : FleetAct} (hs : f.step a = some f') : f'.Orderly := by
  refine ⟨nodup_step h.nodup hs, ?_⟩
  intro n' hn'
  obtain ⟨sender, station, buffer, -, hempty, rfl⟩ | ⟨n, hn, hmove⟩ :=
    exists_move h.nodup hs hn'
  · exact Node.orderly_joined sender station hempty
  · exact hmove.orderly (h.nodes n hn)

/-- The broker before the first agent joins. -/
def start (b : Tables) : Fleet := ⟨b, []⟩

theorem orderly_start (b : Tables) : (start b).Orderly :=
  ⟨List.nodup_nil, List.forall_mem_nil _⟩

end Fleet

end AdMQ
