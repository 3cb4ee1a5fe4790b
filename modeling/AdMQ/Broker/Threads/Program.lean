import AdMQ.Broker.Threads.State
import AdMQ.Core.Transition

/-!
# The programs of the threads

What each thread does next, as a function of the point it stands at and of what
the environment decides there: which descriptor `accept` returns, how a TLS call
ends, what the operator types. A step runs from one point to the next and is
disabled while a lock it needs is held. The lookup of a client with its lock is
one step, since the registry cannot change between the two.

The accept loop gets a batch of events from `epoll_wait` and handles them one by
one. A listening socket may be reported at any place of a batch, so `accept` may
run between any two of its steps.

A lobby connection is only followed as the owner of its descriptor: its one task
ends with `close`, and nothing arms it a second time. Printing, the bound on the
number of swept descriptors and a failing database are left out.
-/

namespace AdMQ

open Core

/-- A command of the operator that changes something; texts are as the handlers pass them on. -/
inductive CliCommand where
  | publish (topic message : CStr)
  | set (targetHost key value : CStr)
  | subscribe (targetHost topic : CStr)
  | unsubscribe (targetHost topic : CStr)
  deriving DecidableEq

/-- What the environment decides in a step. -/
inductive Input where
  /-- Nothing. -/
  | go
  | tick
  /-- `accept` on the vault port returned this descriptor. -/
  | acceptVault (fd : Int)
  /-- `accept` on the lobby port returned this descriptor. -/
  | acceptLobby (fd : Int)
  /-- `malloc` returned this memory. -/
  | memory (memory : ClientMemory)
  /-- `epoll_wait` reported these descriptors. -/
  | events (fds : List Int)
  /-- The task of a lobby connection is done. -/
  | closeLobby (fd : Int)
  /-- A TLS call would have to wait for more data. -/
  | wantIo
  /-- A TLS call failed, or the peer closed the connection. -/
  | sslError
  /-- The handshake ended with a certificate that `auth_verify_mtls` rejects. -/
  | badCertificate
  /-- The handshake ended with a certificate that `auth_verify_mtls` accepts. -/
  | goodCertificate (cn : CStr)
  /-- `SSL_read` returned these bytes. -/
  | data (chunk : List UInt8)
  | command (cmd : CliCommand)

/-- A step of a thread. -/
structure Act where
  thread : Thread
  input : Input

/-- The effects of a step and the point it leads to; none while the step is not enabled. -/
abbrev Plan := Option (List Effect × Pc)

/-- The commands that go to an access check or to the device state. -/
def Command.usesHostname : Command → Bool
  | .set .. | .get .. | .subscribe .. | .unsubscribe .. | .publish .. => true
  | .ping | .pong | .invalid => false

namespace Sys

variable (s : Sys)

/-- The clients whose keys a sweep recognises, in the order of the buckets. -/
def sweptClients : List ConnId :=
  (s.registry.clientsMap.entries.filter fun e => isFdKey e.1).map (·.2)

/-- A sweep looks at the clients under descriptor keys and at no others. -/
theorem mem_sweptClients (c : ConnId) :
    c ∈ s.sweptClients ↔ ∃ key, isFdKey key = true ∧ s.registry.clientsMap.get key = some c := by
  simp only [sweptClients, List.mem_map, List.mem_filter, Prod.exists]
  constructor
  · rintro ⟨key, d, ⟨hmem, hkey⟩, rfl⟩
    exact ⟨key, hkey, (ChainTable.mem_entries_iff _).mp hmem⟩
  · rintro ⟨key, hkey, hget⟩
    exact ⟨key, c, ⟨(ChainTable.mem_entries_iff _).mpr hget, hkey⟩, rfl⟩

/-- The commands of the operator. The arrays for the topic names are cleared and hold 63 bytes. -/
def planCli : CliCommand → Plan
  | .publish topic message => some ([], .publish none .cli topic message)
  | .set targetHost key value => some ([.store .cli targetHost key value], .idle)
  | .subscribe targetHost topic =>
    match s.byHostname targetHost with
    | none => some ([], .idle)
    | some c =>
      if s.Locked c then none
      else some ([], .subscribe none .cli c (s.client c).fd (topic.take 63))
  | .unsubscribe targetHost topic =>
    match s.byHostname targetHost with
    | none => some ([], .idle)
    | some c =>
      if s.Locked c then none
      else some ([], .unsubscribe none c (s.client c).fd (topic.take 63))

/-- A thread that waits for something to do. -/
def planIdle : Thread → Input → Plan
  | .main, .acceptVault fd =>
    if 0 < fd ∧ s.fdTable fd = none then some ([.accept fd false], .accepted s.nextConn fd)
    else none
  | .main, .acceptLobby fd =>
    if 0 < fd ∧ s.fdTable fd = none then some ([.accept fd true], .idle) else none
  | .main, .events fds =>
    if s.events = [] ∧ fds.length ≤ maxEvents ∧ fds.Nodup ∧ ∀ fd ∈ fds, s.epoll fd = some true then
      some ([.report fds], .idle)
    else none
  | .main, .go =>
    match s.events with
    | [] => none
    | _ :: _ => some ([.queueWrite], .idle)
  | .main, .tick => some ([.tick], .idle)
  | .worker _, .go =>
    match s.tasks with
    | [] => none
    | r :: _ => some ([.takeTask], .task r)
  | .worker _, .closeLobby fd =>
    match s.fdTable fd with
    | none => none
    | some c => if s.lobby c then some ([.closeLobby fd], .idle) else none
  | .sweeper, .go => some ([], .scan s.sweptClients s.now [])
  | .cli, .command cmd => s.planCli cmd
  | _, _ => none

/-- A worker with the client of its task: the handshake, or one read. -/
def planLocked (r : Ref) (c : ConnId) (input : Input) : Plan :=
  match (s.client c).authStatus, input with
  | .pending, .wantIo => some ([.startSsl c, .epollMod (s.client c).fd], .idle)
  | .pending, .sslError => some ([.startSsl c], .remove r.fd [])
  | .pending, .badCertificate => some ([.startSsl c], .remove r.fd [])
  | .pending, .goodCertificate cn => some ([.startSsl c, .authenticate c cn], .setName r cn)
  | .success, .wantIo => some ([.startSsl c, .epollMod (s.client c).fd], .idle)
  | .success, .sslError => some ([.startSsl c], .sweep [r.fd])
  | .success, .data chunk =>
    if 0 < chunk.length ∧ chunk.length ≤ 1023 then
      some ([.startSsl c, .receive c chunk], .lines r c)
    else none
  | _, _ => none

/-- The branches of the command chain up to their calls into `pubsub.c`. -/
def planCommand (r : Ref) (c : ConnId) (cmd : Command) : List Effect × Pc :=
  let host := (s.client c).hostname
  let origin := Origin.client c (s.client c).authStatus host
  let denied : List Effect × Pc := ([.emit (.reply c deniedReply)], .lines r c)
  match cmd with
  | .set key value =>
    if rbacCanSet s.policy host key then
      ([.store origin host key value, .emit (.reply c (updatedReply key))], .lines r c)
    else denied
  | .get key payload =>
    let text := match s.db.get host key with
      | some value => valueReply key value
      | none => missingReply key
    ([.logMessage host key payload, .emit (.reply c text)], .lines r c)
  | .ping => ([.emit (.reply c pongReply)], .lines r c)
  | .pong => ([], .lines r c)
  | .subscribe topic payload =>
    if rbacCanSubscribe s.policy host topic then
      ([.logMessage host topic payload], .subscribe (some r) origin c (s.client c).fd topic)
    else denied
  | .unsubscribe topic =>
    if rbacCanUnsubscribe s.policy host topic then
      ([], .unsubscribe (some r) c (s.client c).fd topic)
    else denied
  | .publish topic payload =>
    if rbacCanPublish s.policy host topic then
      ([.logMessage host topic payload], .publish (some r) origin topic payload)
    else denied
  | .invalid => ([.emit (.reply c invalidReply)], .lines r c)

/-- One line of the locked client, or the end of the task when there is none. -/
def planLine (r : Ref) (c : ConnId) : Plan :=
  match clientBufferExtractLine (s.client c).buffer 1024 with
  | none => some ([.epollMod (s.client c).fd], .idle)
  | some (line, buffer) =>
    if messageOf line = [] then some ([.consume c buffer], .lines r c)
    else
      let cmd := parseCommand (messageOf line)
      let (effects, next) := s.planCommand r c cmd
      let used := if cmd.usesHostname then [.emit (.dispatched c (s.client c).hostname)] else []
      some (.consume c buffer :: (used ++ effects), next)

/-- The next subscriber of a publication. -/
def planPublishing (r : Option Ref) (origin : Origin) (topic message : CStr) : List Int → Plan
  | [] =>
    match r with
    | some r => some ([], .relock r topic)
    | none => some ([], .idle)
  | fd :: rest =>
    match s.byFd fd with
    | none => some ([], .publishing r origin topic message rest)
    | some c =>
      if s.Locked c then none
      else if (s.client c).ssl ∨ 0 < (s.client c).fd then
        some ([.emit (.delivered origin c topic (formattedMsg topic message))],
          .publishing r origin topic message rest)
      else some ([], .publishing r origin topic message rest)

/-- The next client of a scan; idle for more than 60 seconds is idle for too long. -/
def planScan (now : Nat) (found : List Int) : List ConnId → Plan
  | [] => some ([], .sweep found)
  | c :: todo =>
    if s.Locked c then none
    else if (s.client c).state = .idle ∧ (s.client c).lastActivity + 60 < now then
      some ([], .scan todo now (found ++ [(s.client c).fd]))
    else some ([], .scan todo now found)

/-- The next step of a thread. -/
def plan (t : Thread) (input : Input) : Plan :=
  match s.pc t with
  | .idle => s.planIdle t input
  | .accepted c fd =>
    match input with
    | .memory memory =>
      if s.ReadLocked ∨ ¬ s.Allocates memory then none
      else some ([.addClient c fd memory], .added fd)
    | _ => none
  | .added fd => some ([.epollAdd fd], .idle)
  | .task r =>
    match s.byFd r.fd with
    | none => some ([], .idle)
    | some c => if s.Locked c then none else some ([], .locked r c)
  | .locked r c => s.planLocked r c input
  | .lines r c => s.planLine r c
  | .subscribe r origin c fd topic =>
    if s.PubsubLocked then none
    else
      match r with
      | some r => some ([.subscribe origin c fd topic, .emit (.reply c (subscribedReply topic))],
          .lines r c)
      | none => some ([.subscribe origin c fd topic], .idle)
  | .unsubscribe r c fd topic =>
    if s.PubsubLocked then none
    else
      match r with
      | some r => some ([.unsubscribe c fd topic, .emit (.reply c (unsubscribedReply topic))],
          .lines r c)
      | none => some ([.unsubscribe c fd topic], .idle)
  | .publish r origin topic message =>
    if s.PubsubLocked then none
    else some ([], .publishing r origin topic message (s.subscribers topic))
  | .publishing r origin topic message rest => s.planPublishing r origin topic message rest
  | .relock r topic =>
    match s.byFd r.fd with
    | none => some ([], .sweep [r.fd])
    | some c =>
      if s.Locked c then none else some ([.emit (.reply c (publishedReply topic))], .lines r c)
  | .setName r cn =>
    if s.ReadLocked then none
    else
      match (s.registry.setName r.fd cn).1 with
      | none => some ([], .rearm r)
      | some c => some ([.mapName r.fd cn], .writeName r c cn)
  | .writeName r c cn => if s.Locked (s.heir c) then none else some ([.copyName c cn], .rearm r)
  | .rearm r => some ([.epollMod r.fd], .idle)
  | .sweep [] => some ([], .idle)
  | .sweep (fd :: rest) =>
    if s.PubsubLocked then none else some ([.unsubscribeAll fd], .remove fd rest)
  | .remove fd rest =>
    if s.ReadLocked then none
    else
      match (s.registry.unregister fd).1 with
      | none => some ([], .sweep rest)
      | some c => some ([.unregister fd], .destroy c rest)
  | .destroy c rest => if s.Locked c then none else some ([.tearDown c], .sweep rest)
  | .scan todo now found => s.planScan now found todo

/-- One step of the broker. -/
def step (a : Act) : Option Sys :=
  (s.plan a.thread a.input).map fun p => (s.applyAll p.1).goto a.thread p.2

end Sys

end AdMQ
