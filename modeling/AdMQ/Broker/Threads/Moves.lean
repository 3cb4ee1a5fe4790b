import AdMQ.Broker.Threads.Program

/-!
# The moves of the threads

Every step of the broker is one of the moves listed here: the point it starts
at, the guards it passed, its effects and the point it leads to. The invariants
of the broker are derived from this list and never look into the programs again.
-/

namespace AdMQ

open Core

/-- The effects of a line that is answered at once: it may use the name of the client, write
the audit log and reply. -/
inductive Answers (s : Sys) (c : ConnId) : Effect → Prop where
  | dispatched : Answers s c (.emit (.dispatched c (s.client c).hostname))
  | logged (sender topic message : CStr) : Answers s c (.logMessage sender topic message)
  | replied (text : CStr) : Answers s c (.emit (.reply c text))

/-- On whose behalf the lines of a client are executed. -/
def Sys.originOf (s : Sys) (c : ConnId) : Origin :=
  .client c (s.client c).authStatus (s.client c).hostname

/-- The next line in the buffer of a client is not blank and has this command. -/
def Sys.LineIs (s : Sys) (c : ConnId) (buffer : ClientBuffer) (cmd : Command) : Prop :=
  ∃ line, clientBufferExtractLine (s.client c).buffer 1024 = some (line, buffer) ∧
    messageOf line ≠ [] ∧ parseCommand (messageOf line) = cmd

/-- Only a client with bytes in its buffer has a line. -/
theorem Sys.LineIs.len_pos {s : Sys} {c : ConnId} {buffer : ClientBuffer} {cmd : Command}
    (h : s.LineIs c buffer cmd) : 0 < (s.client c).buffer.len := by
  obtain ⟨line, hline, -, -⟩ := h
  exact len_pos_of_extractLine hline

theorem Sys.LineIs.length_topic {s : Sys} {c : ConnId} {buffer : ClientBuffer}
    {topic payload : CStr} (h : s.LineIs c buffer (.subscribe topic payload)) :
    topic.length ≤ 63 := by
  obtain ⟨line, -, -, hcmd⟩ := h
  exact length_topic_of_subscribe hcmd

/-- The steps of a thread. -/
inductive Move (s : Sys) (t : Thread) (input : Input) : List Effect → Pc → Prop where
  -- The accept loop
  | acceptVault {fd : Int} (ht : t = .main) (hin : input = .acceptVault fd)
      (hpc : s.pc t = .idle) (hpos : 0 < fd) (hfree : s.fdTable fd = none) :
      Move s t input [.accept fd false] (.accepted s.nextConn fd)
  | acceptLobby {fd : Int} (ht : t = .main) (hin : input = .acceptLobby fd)
      (hpc : s.pc t = .idle) (hpos : 0 < fd) (hfree : s.fdTable fd = none) :
      Move s t input [.accept fd true] .idle
  | events {fds : List Int} (ht : t = .main) (hin : input = .events fds) (hpc : s.pc t = .idle)
      (hnone : s.events = []) (hnodup : fds.Nodup) (harmed : ∀ fd ∈ fds, s.epoll fd = some true) :
      Move s t input [.report fds] .idle
  | queueWrite (ht : t = .main) (hpc : s.pc t = .idle) (hsome : s.events ≠ []) :
      Move s t input [.queueWrite] .idle
  | tick (ht : t = .main) (hin : input = .tick) (hpc : s.pc t = .idle) :
      Move s t input [.tick] .idle
  | add {c : ConnId} {fd : Int} {memory : ClientMemory} (hin : input = .memory memory)
      (hpc : s.pc t = .accepted c fd) (hread : ¬ s.ReadLocked) (hmemory : s.Allocates memory) :
      Move s t input [.addClient c fd memory] (.added fd)
  | arm {fd : Int} (hpc : s.pc t = .added fd) : Move s t input [.epollAdd fd] .idle
  -- The workers
  | take {i : Fin threadPoolSize} {r : Ref} {rest : List Ref} (ht : t = .worker i)
      (hpc : s.pc t = .idle) (htasks : s.tasks = r :: rest) : Move s t input [.takeTask] (.task r)
  | closeLobby {i : Fin threadPoolSize} {fd : Int} {c : ConnId} (ht : t = .worker i)
      (hin : input = .closeLobby fd) (hpc : s.pc t = .idle) (howner : s.fdTable fd = some c)
      (hlobby : s.lobby c = true) : Move s t input [.closeLobby fd] .idle
  | unknown {r : Ref} (hpc : s.pc t = .task r) (hget : s.byFd r.fd = none) : Move s t input [] .idle
  | lookup {r : Ref} {c : ConnId} (hpc : s.pc t = .task r) (hget : s.byFd r.fd = some c)
      (hfree : ¬ s.Locked c) : Move s t input [] (.locked r c)
  | wait {r : Ref} {c : ConnId} (hpc : s.pc t = .locked r c) :
      Move s t input [.startSsl c, .epollMod (s.client c).fd] .idle
  | handshakeFailed {r : Ref} {c : ConnId} (hin : input = .sslError ∨ input = .badCertificate)
      (hpc : s.pc t = .locked r c) (hauth : (s.client c).authStatus = .pending) :
      Move s t input [.startSsl c] (.remove r.fd [])
  | verified {r : Ref} {c : ConnId} {cn : CStr} (hin : input = .goodCertificate cn)
      (hpc : s.pc t = .locked r c) (hauth : (s.client c).authStatus = .pending) :
      Move s t input [.startSsl c, .authenticate c cn] (.setName r cn)
  | closed {r : Ref} {c : ConnId} (hpc : s.pc t = .locked r c)
      (hauth : (s.client c).authStatus = .success) : Move s t input [.startSsl c] (.sweep [r.fd])
  | received {r : Ref} {c : ConnId} {chunk : List UInt8} (hpc : s.pc t = .locked r c)
      (hauth : (s.client c).authStatus = .success) :
      Move s t input [.startSsl c, .receive c chunk] (.lines r c)
  | drained {r : Ref} {c : ConnId} (hpc : s.pc t = .lines r c) :
      Move s t input [.epollMod (s.client c).fd] .idle
  | answered {r : Ref} {c : ConnId} {buffer : ClientBuffer} {effects : List Effect}
      (hpc : s.pc t = .lines r c) (hbuf : 0 < (s.client c).buffer.len)
      (heffects : ∀ e ∈ effects, Answers s c e) :
      Move s t input (.consume c buffer :: effects) (.lines r c)
  | stored {r : Ref} {c : ConnId} {buffer : ClientBuffer} {key value text : CStr}
      (hpc : s.pc t = .lines r c) (hline : s.LineIs c buffer (.set key value))
      (hcan : rbacCanSet s.policy (s.client c).hostname key = true) :
      Move s t input
        [.consume c buffer, .emit (.dispatched c (s.client c).hostname),
          .store (s.originOf c) (s.client c).hostname key value, .emit (.reply c text)]
        (.lines r c)
  | lineSubscribe {r : Ref} {c : ConnId} {buffer : ClientBuffer} {topic payload : CStr}
      (hpc : s.pc t = .lines r c) (hline : s.LineIs c buffer (.subscribe topic payload))
      (hcan : rbacCanSubscribe s.policy (s.client c).hostname topic = true)
      (hlen : topic.length ≤ 63) :
      Move s t input
        [.consume c buffer, .emit (.dispatched c (s.client c).hostname),
          .logMessage (s.client c).hostname topic payload]
        (.subscribe (some r) (s.originOf c) c (s.client c).fd topic)
  | lineUnsubscribe {r : Ref} {c : ConnId} {buffer : ClientBuffer} {topic : CStr}
      (hpc : s.pc t = .lines r c) (hline : s.LineIs c buffer (.unsubscribe topic))
      (hcan : rbacCanUnsubscribe s.policy (s.client c).hostname topic = true) :
      Move s t input [.consume c buffer, .emit (.dispatched c (s.client c).hostname)]
        (.unsubscribe (some r) c (s.client c).fd topic)
  | linePublish {r : Ref} {c : ConnId} {buffer : ClientBuffer} {topic payload : CStr}
      (hpc : s.pc t = .lines r c) (hline : s.LineIs c buffer (.publish topic payload))
      (hcan : rbacCanPublish s.policy (s.client c).hostname topic = true) :
      Move s t input
        [.consume c buffer, .emit (.dispatched c (s.client c).hostname),
          .logMessage (s.client c).hostname topic payload]
        (.publish (some r) (s.originOf c) topic payload)
  | relockFailed {r : Ref} {topic : CStr} (hpc : s.pc t = .relock r topic)
      (hget : s.byFd r.fd = none) : Move s t input [] (.sweep [r.fd])
  | relock {r : Ref} {topic : CStr} {c : ConnId} (hpc : s.pc t = .relock r topic)
      (hget : s.byFd r.fd = some c) (hfree : ¬ s.Locked c) :
      Move s t input [.emit (.reply c (publishedReply topic))] (.lines r c)
  | unnamed {r : Ref} {cn : CStr} (hpc : s.pc t = .setName r cn) (hget : s.byFd r.fd = none) :
      Move s t input [] (.rearm r)
  | mapName {r : Ref} {cn : CStr} {c : ConnId} (hpc : s.pc t = .setName r cn)
      (hread : ¬ s.ReadLocked) (hget : s.byFd r.fd = some c) :
      Move s t input [.mapName r.fd cn] (.writeName r c cn)
  | copyName {r : Ref} {c : ConnId} {cn : CStr} (hpc : s.pc t = .writeName r c cn)
      (hfree : ¬ s.Locked (s.heir c)) : Move s t input [.copyName c cn] (.rearm r)
  | rearm {r : Ref} (hpc : s.pc t = .rearm r) : Move s t input [.epollMod r.fd] .idle
  -- The calls into `pubsub.c`
  | subscribe {r : Ref} {origin : Origin} {c : ConnId} {fd : Int} {topic : CStr}
      (hpc : s.pc t = .subscribe (some r) origin c fd topic) (hfree : ¬ s.PubsubLocked) :
      Move s t input [.subscribe origin c fd topic, .emit (.reply c (subscribedReply topic))]
        (.lines r c)
  | cliSubscribe {origin : Origin} {c : ConnId} {fd : Int} {topic : CStr}
      (hpc : s.pc t = .subscribe none origin c fd topic) (hfree : ¬ s.PubsubLocked) :
      Move s t input [.subscribe origin c fd topic] .idle
  | unsubscribe {r : Ref} {c : ConnId} {fd : Int} {topic : CStr}
      (hpc : s.pc t = .unsubscribe (some r) c fd topic) (hfree : ¬ s.PubsubLocked) :
      Move s t input [.unsubscribe c fd topic, .emit (.reply c (unsubscribedReply topic))]
        (.lines r c)
  | cliUnsubscribe {c : ConnId} {fd : Int} {topic : CStr}
      (hpc : s.pc t = .unsubscribe none c fd topic) (hfree : ¬ s.PubsubLocked) :
      Move s t input [.unsubscribe c fd topic] .idle
  | publish {r : Option Ref} {origin : Origin} {topic message : CStr}
      (hpc : s.pc t = .publish r origin topic message) (hfree : ¬ s.PubsubLocked) :
      Move s t input [] (.publishing r origin topic message (s.subscribers topic))
  | skip {r : Option Ref} {origin : Origin} {topic message : CStr} {fd : Int} {rest : List Int}
      (hpc : s.pc t = .publishing r origin topic message (fd :: rest)) :
      Move s t input [] (.publishing r origin topic message rest)
  | deliver {r : Option Ref} {origin : Origin} {topic message : CStr} {fd : Int} {rest : List Int}
      {c : ConnId} (hpc : s.pc t = .publishing r origin topic message (fd :: rest))
      (hget : s.byFd fd = some c) (hfree : ¬ s.Locked c) :
      Move s t input [.emit (.delivered origin c topic (formattedMsg topic message))]
        (.publishing r origin topic message rest)
  | published {r : Ref} {origin : Origin} {topic message : CStr}
      (hpc : s.pc t = .publishing (some r) origin topic message []) :
      Move s t input [] (.relock r topic)
  | cliPublished {origin : Origin} {topic message : CStr}
      (hpc : s.pc t = .publishing none origin topic message []) : Move s t input [] .idle
  -- Removal of clients
  | swept (hpc : s.pc t = .sweep []) : Move s t input [] .idle
  | unsubscribeAll {fd : Int} {rest : List Int} (hpc : s.pc t = .sweep (fd :: rest))
      (hfree : ¬ s.PubsubLocked) : Move s t input [.unsubscribeAll fd] (.remove fd rest)
  | unregistered {fd : Int} {rest : List Int} (hpc : s.pc t = .remove fd rest)
      (hget : s.byFd fd = none) : Move s t input [] (.sweep rest)
  | unregister {fd : Int} {rest : List Int} {c : ConnId} (hpc : s.pc t = .remove fd rest)
      (hread : ¬ s.ReadLocked) (hget : s.byFd fd = some c) :
      Move s t input [.unregister fd] (.destroy c rest)
  | destroy {c : ConnId} {rest : List Int} (hpc : s.pc t = .destroy c rest) (hfree : ¬ s.Locked c) :
      Move s t input [.tearDown c] (.sweep rest)
  -- The sweeper
  | startScan (ht : t = .sweeper) (hpc : s.pc t = .idle) :
      Move s t input [] (.scan s.sweptClients s.now [])
  | scan {c : ConnId} {todo : List ConnId} {now : Nat} {found found' : List Int}
      (hpc : s.pc t = .scan (c :: todo) now found) (hfree : ¬ s.Locked c) :
      Move s t input [] (.scan todo now found')
  | scanned {now : Nat} {found : List Int} (hpc : s.pc t = .scan [] now found) :
      Move s t input [] (.sweep found)
  -- The command line
  | cliPublish {topic message : CStr} (ht : t = .cli) (hpc : s.pc t = .idle) :
      Move s t input [] (.publish none .cli topic message)
  | cliSet {targetHost key value : CStr} (ht : t = .cli)
      (hin : input = .command (.set targetHost key value)) (hpc : s.pc t = .idle) :
      Move s t input [.store .cli targetHost key value] .idle
  | cliNotFound (ht : t = .cli) (hpc : s.pc t = .idle) : Move s t input [] .idle
  | cliFoundSubscribe {targetHost topic : CStr} {c : ConnId} (ht : t = .cli)
      (hpc : s.pc t = .idle) (hget : s.byHostname targetHost = some c)
      (hfree : ¬ s.Locked c) (hlen : topic.length ≤ 63) :
      Move s t input [] (.subscribe none .cli c (s.client c).fd topic)
  | cliFoundUnsubscribe {targetHost topic : CStr} {c : ConnId} (ht : t = .cli)
      (hpc : s.pc t = .idle) (hget : s.byHostname targetHost = some c)
      (hfree : ¬ s.Locked c) : Move s t input [] (.unsubscribe none c (s.client c).fd topic)

namespace Sys

variable {s : Sys} {t : Thread} {input : Input} {effects : List Effect} {next : Pc}

/-- An enabled step with its plan spelled out. -/
theorem eq_of_plan_eq {e e' : List Effect} {p p' : Pc}
    (h : (some (e, p) : Plan) = some (e', p')) : e = e' ∧ p = p' :=
  Prod.mk.inj (Option.some.inj h)

theorem planCli_move (ht : t = .cli) (hpc : s.pc t = .idle) {cmd : CliCommand}
    (hin : input = .command cmd) (h : s.planCli cmd = some (effects, next)) :
    Move s t input effects next := by
  cases cmd with
  | publish topic message =>
    obtain ⟨rfl, rfl⟩ := eq_of_plan_eq h
    exact .cliPublish ht hpc
  | set targetHost key value =>
    obtain ⟨rfl, rfl⟩ := eq_of_plan_eq h
    exact .cliSet ht hin hpc
  | subscribe targetHost topic =>
    simp only [planCli] at h
    split at h
    · obtain ⟨rfl, rfl⟩ := eq_of_plan_eq h
      exact .cliNotFound ht hpc
    next c hget =>
      split at h
      · cases h
      next hfree =>
        obtain ⟨rfl, rfl⟩ := eq_of_plan_eq h
        exact .cliFoundSubscribe ht hpc hget hfree (List.length_take_le ..)
  | unsubscribe targetHost topic =>
    simp only [planCli] at h
    split at h
    · obtain ⟨rfl, rfl⟩ := eq_of_plan_eq h
      exact .cliNotFound ht hpc
    next c hget =>
      split at h
      · cases h
      next hfree =>
        obtain ⟨rfl, rfl⟩ := eq_of_plan_eq h
        exact .cliFoundUnsubscribe ht hpc hget hfree

theorem planIdle_move (hpc : s.pc t = .idle) (h : s.planIdle t input = some (effects, next)) :
    Move s t input effects next := by
  simp only [planIdle] at h
  split at h
  · split at h
    next hg =>
      obtain ⟨rfl, rfl⟩ := eq_of_plan_eq h
      exact .acceptVault rfl rfl hpc hg.1 hg.2
    · cases h
  · split at h
    next hg =>
      obtain ⟨rfl, rfl⟩ := eq_of_plan_eq h
      exact .acceptLobby rfl rfl hpc hg.1 hg.2
    · cases h
  · split at h
    next hg =>
      obtain ⟨rfl, rfl⟩ := eq_of_plan_eq h
      exact .events rfl rfl hpc hg.1 hg.2.2.1 hg.2.2.2
    · cases h
  · split at h
    · cases h
    next hevents =>
      obtain ⟨rfl, rfl⟩ := eq_of_plan_eq h
      refine .queueWrite rfl hpc ?_
      rw [hevents]
      exact List.cons_ne_nil _ _
  · obtain ⟨rfl, rfl⟩ := eq_of_plan_eq h
    exact .tick rfl rfl hpc
  · split at h
    · cases h
    next htasks =>
      obtain ⟨rfl, rfl⟩ := eq_of_plan_eq h
      exact .take rfl hpc htasks
  · split at h
    · cases h
    next howner =>
      split at h
      next hlobby =>
        obtain ⟨rfl, rfl⟩ := eq_of_plan_eq h
        exact .closeLobby rfl rfl hpc howner hlobby
      · cases h
  · obtain ⟨rfl, rfl⟩ := eq_of_plan_eq h
    exact .startScan rfl hpc
  · exact planCli_move rfl hpc rfl h
  · cases h

theorem planLocked_move {r : Ref} {c : ConnId} (hpc : s.pc t = .locked r c)
    (h : s.planLocked r c input = some (effects, next)) : Move s t input effects next := by
  simp only [planLocked] at h
  split at h
  next hauth =>
    obtain ⟨rfl, rfl⟩ := eq_of_plan_eq h
    exact .wait hpc
  next hauth =>
    obtain ⟨rfl, rfl⟩ := eq_of_plan_eq h
    exact .handshakeFailed (Or.inl rfl) hpc hauth
  next hauth =>
    obtain ⟨rfl, rfl⟩ := eq_of_plan_eq h
    exact .handshakeFailed (Or.inr rfl) hpc hauth
  next hauth =>
    obtain ⟨rfl, rfl⟩ := eq_of_plan_eq h
    exact .verified rfl hpc hauth
  next hauth =>
    obtain ⟨rfl, rfl⟩ := eq_of_plan_eq h
    exact .wait hpc
  next hauth =>
    obtain ⟨rfl, rfl⟩ := eq_of_plan_eq h
    exact .closed hpc hauth
  next hauth =>
    split at h
    · obtain ⟨rfl, rfl⟩ := eq_of_plan_eq h
      exact .received hpc hauth
    · cases h
  · cases h

/-- A line of the locked client: its command decides what the plan of the line is. -/
theorem planCommand_move {r : Ref} {c : ConnId} {buffer : ClientBuffer} {cmd : Command}
    (hpc : s.pc t = .lines r c) (hline : s.LineIs c buffer cmd) :
    Move s t input
      (.consume c buffer ::
        ((if cmd.usesHostname then [.emit (.dispatched c (s.client c).hostname)] else []) ++
          (s.planCommand r c cmd).1))
      (s.planCommand r c cmd).2 := by
  have hdenied : Move s t input
      (.consume c buffer :: .emit (.dispatched c (s.client c).hostname) ::
        [.emit (.reply c deniedReply)]) (.lines r c) := by
    refine .answered hpc hline.len_pos ?_
    intro e he
    rcases List.mem_cons.mp he with rfl | he
    · exact .dispatched
    · rw [List.mem_singleton.mp he]
      exact .replied _
  cases cmd with
  | set key value =>
    simp only [planCommand, Command.usesHostname, if_true]
    split
    next hcan => exact .stored hpc hline hcan
    · exact hdenied
  | get key payload =>
    refine .answered hpc hline.len_pos ?_
    intro e he
    simp only [planCommand, Command.usesHostname, if_true, List.cons_append, List.nil_append,
      List.mem_cons, List.not_mem_nil, or_false] at he
    rcases he with rfl | rfl | rfl
    · exact .dispatched
    · exact .logged ..
    · exact .replied _
  | ping =>
    refine .answered hpc hline.len_pos ?_
    intro e he
    rw [List.mem_singleton.mp he]
    exact .replied _
  | pong => exact .answered hpc hline.len_pos fun e he => absurd he (List.not_mem_nil)
  | subscribe topic payload =>
    simp only [planCommand, Command.usesHostname, if_true]
    split
    next hcan => exact .lineSubscribe hpc hline hcan hline.length_topic
    · exact hdenied
  | unsubscribe topic =>
    simp only [planCommand, Command.usesHostname, if_true]
    split
    next hcan => exact .lineUnsubscribe hpc hline hcan
    · exact hdenied
  | publish topic payload =>
    simp only [planCommand, Command.usesHostname, if_true]
    split
    next hcan => exact .linePublish hpc hline hcan
    · exact hdenied
  | invalid =>
    refine .answered hpc hline.len_pos ?_
    intro e he
    rw [List.mem_singleton.mp he]
    exact .replied _

theorem planLine_move {r : Ref} {c : ConnId} (hpc : s.pc t = .lines r c)
    (h : s.planLine r c = some (effects, next)) : Move s t input effects next := by
  simp only [planLine] at h
  split at h
  · obtain ⟨rfl, rfl⟩ := eq_of_plan_eq h
    exact .drained hpc
  next line buffer hline =>
    split at h
    · obtain ⟨rfl, rfl⟩ := eq_of_plan_eq h
      exact .answered hpc (len_pos_of_extractLine hline) fun e he => absurd he List.not_mem_nil
    next hblank =>
      obtain ⟨rfl, rfl⟩ := eq_of_plan_eq h
      exact planCommand_move hpc ⟨line, hline, hblank, rfl⟩

theorem planPublishing_move {r : Option Ref} {origin : Origin} {topic message : CStr}
    {rest : List Int} (hpc : s.pc t = .publishing r origin topic message rest)
    (h : s.planPublishing r origin topic message rest = some (effects, next)) :
    Move s t input effects next := by
  cases rest with
  | nil =>
    cases r with
    | none =>
      obtain ⟨rfl, rfl⟩ := eq_of_plan_eq h
      exact .cliPublished hpc
    | some r =>
      obtain ⟨rfl, rfl⟩ := eq_of_plan_eq h
      exact .published hpc
  | cons fd rest =>
    simp only [planPublishing] at h
    split at h
    · obtain ⟨rfl, rfl⟩ := eq_of_plan_eq h
      exact .skip hpc
    next c hget =>
      split at h
      · cases h
      next hfree =>
        split at h
        · obtain ⟨rfl, rfl⟩ := eq_of_plan_eq h
          exact .deliver hpc hget hfree
        · obtain ⟨rfl, rfl⟩ := eq_of_plan_eq h
          exact .skip hpc

theorem planScan_move {todo : List ConnId} {now : Nat} {found : List Int}
    (hpc : s.pc t = .scan todo now found) (h : s.planScan now found todo = some (effects, next)) :
    Move s t input effects next := by
  cases todo with
  | nil =>
    obtain ⟨rfl, rfl⟩ := eq_of_plan_eq h
    exact .scanned hpc
  | cons c todo =>
    simp only [planScan] at h
    split at h
    · cases h
    next hfree =>
      split at h
      · obtain ⟨rfl, rfl⟩ := eq_of_plan_eq h
        exact .scan hpc hfree
      · obtain ⟨rfl, rfl⟩ := eq_of_plan_eq h
        exact .scan hpc hfree

/-- Every enabled step is a move. -/
theorem plan_move (h : s.plan t input = some (effects, next)) : Move s t input effects next := by
  cases hpc : s.pc t with
  | idle =>
    simp only [plan, hpc] at h
    exact planIdle_move hpc h
  | accepted c fd =>
    simp only [plan, hpc] at h
    split at h
    · split at h
      · cases h
      next hg =>
        obtain ⟨rfl, rfl⟩ := eq_of_plan_eq h
        obtain ⟨hread, hmemory⟩ := not_or.mp hg
        exact .add rfl hpc hread (not_not.mp hmemory)
    · cases h
  | added fd =>
    simp only [plan, hpc] at h
    obtain ⟨rfl, rfl⟩ := eq_of_plan_eq h
    exact .arm hpc
  | task r =>
    simp only [plan, hpc] at h
    split at h
    next hget =>
      obtain ⟨rfl, rfl⟩ := eq_of_plan_eq h
      exact .unknown hpc hget
    next c hget =>
      split at h
      · cases h
      next hfree =>
        obtain ⟨rfl, rfl⟩ := eq_of_plan_eq h
        exact .lookup hpc hget hfree
  | locked r c =>
    simp only [plan, hpc] at h
    exact planLocked_move hpc h
  | lines r c =>
    simp only [plan, hpc] at h
    exact planLine_move hpc h
  | subscribe r origin c fd topic =>
    simp only [plan, hpc] at h
    split at h
    · cases h
    next hfree =>
      cases r with
      | none =>
        obtain ⟨rfl, rfl⟩ := eq_of_plan_eq h
        exact .cliSubscribe hpc hfree
      | some r =>
        obtain ⟨rfl, rfl⟩ := eq_of_plan_eq h
        exact .subscribe hpc hfree
  | unsubscribe r c fd topic =>
    simp only [plan, hpc] at h
    split at h
    · cases h
    next hfree =>
      cases r with
      | none =>
        obtain ⟨rfl, rfl⟩ := eq_of_plan_eq h
        exact .cliUnsubscribe hpc hfree
      | some r =>
        obtain ⟨rfl, rfl⟩ := eq_of_plan_eq h
        exact .unsubscribe hpc hfree
  | publish r origin topic message =>
    simp only [plan, hpc] at h
    split at h
    · cases h
    next hfree =>
      obtain ⟨rfl, rfl⟩ := eq_of_plan_eq h
      exact .publish hpc hfree
  | publishing r origin topic message rest =>
    simp only [plan, hpc] at h
    exact planPublishing_move hpc h
  | relock r topic =>
    simp only [plan, hpc] at h
    split at h
    next hget =>
      obtain ⟨rfl, rfl⟩ := eq_of_plan_eq h
      exact .relockFailed hpc hget
    next c hget =>
      split at h
      · cases h
      next hfree =>
        obtain ⟨rfl, rfl⟩ := eq_of_plan_eq h
        exact .relock hpc hget hfree
  | setName r cn =>
    simp only [plan, hpc, Registry.fst_setName] at h
    split at h
    · cases h
    next hread =>
      split at h
      next hget =>
        obtain ⟨rfl, rfl⟩ := eq_of_plan_eq h
        exact .unnamed hpc hget
      next c hget =>
        obtain ⟨rfl, rfl⟩ := eq_of_plan_eq h
        exact .mapName hpc hread hget
  | writeName r c cn =>
    simp only [plan, hpc] at h
    split at h
    · cases h
    next hfree =>
      obtain ⟨rfl, rfl⟩ := eq_of_plan_eq h
      exact .copyName hpc hfree
  | rearm r =>
    simp only [plan, hpc] at h
    obtain ⟨rfl, rfl⟩ := eq_of_plan_eq h
    exact .rearm hpc
  | sweep fds =>
    cases fds with
    | nil =>
      simp only [plan, hpc] at h
      obtain ⟨rfl, rfl⟩ := eq_of_plan_eq h
      exact .swept hpc
    | cons fd rest =>
      simp only [plan, hpc] at h
      split at h
      · cases h
      next hfree =>
        obtain ⟨rfl, rfl⟩ := eq_of_plan_eq h
        exact .unsubscribeAll hpc hfree
  | remove fd rest =>
    simp only [plan, hpc, Registry.fst_unregister] at h
    split at h
    · cases h
    next hread =>
      split at h
      next hget =>
        obtain ⟨rfl, rfl⟩ := eq_of_plan_eq h
        exact .unregistered hpc hget
      next c hget =>
        obtain ⟨rfl, rfl⟩ := eq_of_plan_eq h
        exact .unregister hpc hread hget
  | destroy c rest =>
    simp only [plan, hpc] at h
    split at h
    · cases h
    next hfree =>
      obtain ⟨rfl, rfl⟩ := eq_of_plan_eq h
      exact .destroy hpc hfree
  | scan todo now found =>
    simp only [plan, hpc] at h
    exact planScan_move hpc h

/-- What a step of the broker is: the effects of a move, and then the new point. -/
theorem exists_move_of_step {s' : Sys} {a : Act} (h : s.step a = some s') :
    ∃ effects next, Move s a.thread a.input effects next ∧
      s' = (s.applyAll effects).goto a.thread next := by
  obtain ⟨⟨effects, next⟩, hplan, rfl⟩ := Option.map_eq_some_iff.mp h
  exact ⟨effects, next, plan_move hplan, rfl⟩

end Sys

end AdMQ
