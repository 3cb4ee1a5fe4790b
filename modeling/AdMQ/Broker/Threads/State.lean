import Mathlib.Algebra.GroupWithZero.Nat
import Mathlib.Data.Fintype.Basic
import AdMQ.Broker.Client.Registry
import AdMQ.Broker.PubSub.Members
import AdMQ.Broker.Rbac.Loader
import AdMQ.Broker.Worker.Command

/-!
# The state shared by the threads

The accept loop, the workers, the sweeper and the operator's command line work
on one state: the registry, the topic table, the database, the descriptor table
of the kernel with the epoll set, and the queue of tasks. Each thread stands at
a program point, and the locks are read off the points: a client mutex is held
exactly by a thread whose point says so, and the same goes for `pubsub_lock` and
the read lock of a sweep.

What a thread does between two lock operations is a list of effects. The
connection numbers and the log are not in the program: they name what the
theorems about it speak of, and no effect reads the log.

A client is freed when it is torn down, and `malloc` may hand its memory to a
later `client_add`. Whoever still has the address then reads and writes the
record of the later client, its heir. The two places where this can happen are
the copy of a host name and a lookup of the command line.
-/

namespace AdMQ

open Core

/-- `THREAD_POOL_SIZE`. -/
def threadPoolSize : Nat := 10

instance : NeZero threadPoolSize := ⟨by decide⟩

/-- The threads of the broker. -/
inductive Thread where
  | main
  | worker (i : Fin threadPoolSize)
  | sweeper
  | cli
  deriving DecidableEq

instance : Fintype Thread where
  elems := {.main, .sweeper, .cli} ∪ Finset.univ.image Thread.worker
  complete t := by cases t <;> simp

/-- `MAX_EVENTS`. -/
def maxEvents : Nat := 64

/-- A task, or an event that becomes one: the descriptor it carries, and the connection that the
event was raised for. -/
structure Ref where
  fd : Int
  conn : ConnId
  deriving DecidableEq

/-- On whose behalf something is done; of a client, what its record says at that moment. -/
inductive Origin where
  | cli
  | client (c : ConnId) (authStatus : AuthStatus) (hostname : CStr)
  deriving DecidableEq

/-- What happened, for the log. -/
inductive Event where
  /-- `auth_verify_mtls` accepted a certificate with this common name on the connection. -/
  | verified (c : ConnId) (cn : CStr)
  /-- A line of the connection went to an access check or to the device state under a name. -/
  | dispatched (c : ConnId) (hostname : CStr)
  | stored (origin : Origin) (hostname key value : CStr)
  /-- `pubsub_subscribe` ran for a connection, with the descriptor it was given. -/
  | subscribed (origin : Origin) (c : ConnId) (fd : Int) (topic : CStr)
  /-- On behalf of a connection a descriptor was put into the list of a topic. -/
  | entered (c : ConnId) (fd : Int) (topic : CStr)
  | unsubscribed (c : ConnId) (fd : Int) (topic : CStr)
  /-- `pubsub_unsubscribe_all` ran, while the descriptor belonged to a connection or to none. -/
  | unsubscribedAll (c : Option ConnId) (fd : Int)
  /-- `pubsub_publish` wrote a text of a topic to a connection. -/
  | delivered (origin : Origin) (c : ConnId) (topic text : CStr)
  | reply (c : ConnId) (text : CStr)
  deriving DecidableEq

/-- Where a thread stands. -/
inductive Pc where
  /-- Waiting for an event, a task, a command or the next sweep. -/
  | idle
  /-- `accept` returned; `client_add` comes next. -/
  | accepted (c : ConnId) (fd : Int)
  /-- The client is registered; the descriptor goes into the epoll set next. -/
  | added (fd : Int)
  /-- A vault task was taken from the queue. -/
  | task (r : Ref)
  /-- The client of the task is locked. -/
  | locked (r : Ref) (c : ConnId)
  /-- At the head of the loop over the lines of the locked client. -/
  | lines (r : Ref) (c : ConnId)
  /-- Before `pubsub_subscribe`; a worker holds the client mutex here, the command line does not. -/
  | subscribe (r : Option Ref) (origin : Origin) (c : ConnId) (fd : Int) (topic : CStr)
  /-- Before `pubsub_unsubscribe`, likewise. -/
  | unsubscribe (r : Option Ref) (c : ConnId) (fd : Int) (topic : CStr)
  /-- Before `pubsub_publish`, with no client mutex. -/
  | publish (r : Option Ref) (origin : Origin) (topic message : CStr)
  /-- In the subscriber loop of `pubsub_publish`, with `pubsub_lock`. -/
  | publishing (r : Option Ref) (origin : Origin) (topic message : CStr) (rest : List Int)
  /-- After `pubsub_publish`, before the client of the task is locked again. -/
  | relock (r : Ref) (topic : CStr)
  /-- Before the map section of `client_set_hostname`. -/
  | setName (r : Ref) (cn : CStr)
  /-- Before `client_set_hostname` writes the name into the client it found. -/
  | writeName (r : Ref) (c : ConnId) (cn : CStr)
  /-- Before the descriptor of the task is armed again. -/
  | rearm (r : Ref)
  /-- Before `pubsub_unsubscribe_all` and `client_remove` for each of these descriptors. -/
  | sweep (fds : List Int)
  /-- Before the map section of `client_remove`. -/
  | remove (fd : Int) (rest : List Int)
  /-- Before `client_remove` tears the client down that it took out of the map. -/
  | destroy (c : ConnId) (rest : List Int)
  /-- In the scan of a sweep, with the read lock. -/
  | scan (todo : List ConnId) (now : Nat) (found : List Int)
  deriving DecidableEq

/-- The client whose mutex a thread holds at a point. -/
def Pc.holds : Pc → Option ConnId
  | .locked _ c | .lines _ c => some c
  | .subscribe (some _) _ c _ _ | .unsubscribe (some _) c _ _ => some c
  | _ => none

/-- The points with `pubsub_lock` held. -/
def Pc.holdsPubsub : Pc → Bool
  | .publishing .. => true
  | _ => false

/-- The points with `clients_rwlock` held for reading. -/
def Pc.holdsRead : Pc → Bool
  | .scan .. => true
  | _ => false

/-- The tables of `db.c`, for a database that accepts every statement. -/
structure Database where
  /-- `device_state`, by host name and key. -/
  deviceState : CStr → CStr → Option CStr
  /-- The rows of `audit_log`: sender, topic and message. -/
  auditLog : List (CStr × CStr × CStr)

/-- `db_set_device_state`. -/
def Database.set (db : Database) (hostname key value : CStr) : Database :=
  { db with deviceState := fun h k =>
    if h = hostname ∧ k = key then some value else db.deviceState h k }

/-- `db_get_device_state` into a buffer of 256 bytes. -/
def Database.get (db : Database) (hostname key : CStr) : Option CStr :=
  (db.deviceState hostname key).map (·.take 255)

/-- `db_log_message`. -/
def Database.logMessage (db : Database) (sender topic message : CStr) : Database :=
  { db with auditLog := db.auditLog ++ [(sender, topic, message)] }

/-- What `malloc` returned to `client_add`: the content that is left in it, and the freed client
whose memory it was, if it was one's. -/
structure ClientMemory extends Junk where
  reused : Option ConnId

/-- Memory that happens to be cleared and was no client's. -/
def ClientMemory.zero : ClientMemory := ⟨.zero, none⟩

/-- The broker with its threads. -/
structure Sys where
  policy : Policy
  registry : Registry
  topics : PubSub
  db : Database
  /-- The open descriptors and the connection that each belongs to. -/
  fdTable : Int → Option ConnId
  /-- The connections that were accepted on the lobby port. -/
  lobby : ConnId → Bool
  nextConn : ConnId
  /-- The client whose record is now in the memory that a client was given. -/
  heir : ConnId → ConnId
  /-- The epoll set: whether a registered descriptor is armed. -/
  epoll : Int → Option Bool
  /-- What the accept loop has yet to handle of `events`, listening sockets apart. -/
  events : List Ref
  tasks : List Ref
  now : Nat
  log : List Event
  pc : Thread → Pc

namespace Sys

/-- The broker before the first connection, with the database it opened. -/
def init (policy : Policy) (db : Database) : Sys where
  policy := policy
  registry := .init
  topics := pubsubInit .static
  db := db
  fdTable := fun _ => none
  lobby := fun _ => false
  nextConn := 0
  heir := id
  epoll := fun _ => none
  events := []
  tasks := []
  now := 0
  log := []
  pc := fun _ => .idle

/-- A client record. -/
def client (s : Sys) (c : ConnId) : Client := s.registry.client c

/-- The client registered under a descriptor. -/
def byFd (s : Sys) (fd : Int) : Option ConnId := s.registry.byFd fd

/-- The client in the memory that the entry of a host name leads to. -/
def byHostname (s : Sys) (hostname : CStr) : Option ConnId :=
  (s.registry.byHostname hostname).map s.heir

/-- `malloc` hands out the memory of a client only when the client was freed and nobody else was
given the memory since. -/
def Allocates (s : Sys) (memory : ClientMemory) : Prop :=
  ∀ d ∈ memory.reused, (s.client d).fd < 0 ∧ s.heir d = d

instance (s : Sys) (memory : ClientMemory) : Decidable (s.Allocates memory) :=
  inferInstanceAs (Decidable (∀ d ∈ memory.reused, _))

/-- The subscribers of a topic. -/
def subscribers (s : Sys) (topic : CStr) : List Int := s.topics.subscribersOf topic

/-- Some thread holds the mutex of a client. -/
def Locked (s : Sys) (c : ConnId) : Prop := ∃ t, (s.pc t).holds = some c

/-- Some thread holds `pubsub_lock`. -/
def PubsubLocked (s : Sys) : Prop := ∃ t, (s.pc t).holdsPubsub = true

/-- Some thread holds `clients_rwlock` for longer than one step. -/
def ReadLocked (s : Sys) : Prop := ∃ t, (s.pc t).holdsRead = true

instance (s : Sys) (c : ConnId) : Decidable (s.Locked c) :=
  inferInstanceAs (Decidable (∃ t, (s.pc t).holds = some c))

instance (s : Sys) : Decidable s.PubsubLocked :=
  inferInstanceAs (Decidable (∃ t, (s.pc t).holdsPubsub = true))

instance (s : Sys) : Decidable s.ReadLocked :=
  inferInstanceAs (Decidable (∃ t, (s.pc t).holdsRead = true))

end Sys

/-- What the threads do to the shared state. -/
inductive Effect where
  /-- A second passes. -/
  | tick
  /-- `accept` on the vault or on the lobby port; a lobby descriptor goes into the epoll set. -/
  | accept (fd : Int) (lobby : Bool)
  /-- `client_add`. -/
  | addClient (c : ConnId) (fd : Int) (memory : ClientMemory)
  /-- `epoll_ctl` with `EPOLL_CTL_ADD`. -/
  | epollAdd (fd : Int)
  /-- `epoll_ctl` with `EPOLL_CTL_MOD`. -/
  | epollMod (fd : Int)
  /-- `epoll_wait` fills `events`; the descriptors are disarmed. -/
  | report (fds : List Int)
  /-- `queue_write` of the next event. -/
  | queueWrite
  /-- `queue_read`. -/
  | takeTask
  | startSsl (c : ConnId)
  /-- The certificate of a client was accepted. -/
  | authenticate (c : ConnId) (cn : CStr)
  /-- The bytes of a read go into the buffer of the client. -/
  | receive (c : ConnId) (chunk : List UInt8)
  /-- The buffer of the client after a line was extracted. -/
  | consume (c : ConnId) (buffer : ClientBuffer)
  /-- The map section of `client_set_hostname`. -/
  | mapName (fd : Int) (cn : CStr)
  /-- `client_set_hostname` copies the name into the memory of the client it found. -/
  | copyName (c : ConnId) (cn : CStr)
  /-- The map section of `client_remove`. -/
  | unregister (fd : Int)
  /-- `client_remove` tears a client down and closes its descriptor. -/
  | tearDown (c : ConnId)
  /-- A worker closes a lobby connection. -/
  | closeLobby (fd : Int)
  | subscribe (origin : Origin) (c : ConnId) (fd : Int) (topic : CStr)
  | unsubscribe (c : ConnId) (fd : Int) (topic : CStr)
  | unsubscribeAll (fd : Int)
  | store (origin : Origin) (hostname key value : CStr)
  | logMessage (sender topic message : CStr)
  /-- An event that leaves no other trace in the state. -/
  | emit (e : Event)

namespace Sys

/-- Rewrite one client. -/
def modifyClient (s : Sys) (c : ConnId) (f : Client → Client) : Sys :=
  { s with registry := s.registry.modify c f }

/-- The kernel closes a descriptor and drops it from the epoll set. -/
def closeFd (s : Sys) (fd : Int) : Sys :=
  { s with
    fdTable := Function.update s.fdTable fd none
    epoll := Function.update s.epoll fd none }

/-- Add to the log. -/
def emit (s : Sys) (e : Event) : Sys := { s with log := e :: s.log }

/-- `client_remove` under the mutex of the client. -/
def tearDown (s : Sys) (c : ConnId) : Sys :=
  let fd := (s.client c).fd
  { s.modifyClient c Client.tornDown with
    fdTable := if 0 < fd then Function.update s.fdTable fd none else s.fdTable
    epoll := if 0 < fd then Function.update s.epoll fd none else s.epoll }

/-- The log entry of a subscription that puts the descriptor into the list of the topic. -/
def entering (s : Sys) (c : ConnId) (fd : Int) (topic : CStr) : List Event :=
  if fd ∉ s.subscribers topic ∧ fd ∈ (pubsubSubscribe s.topics fd topic).subscribersOf topic then
    [.entered c fd topic]
  else []

/-- One effect. -/
def apply (s : Sys) : Effect → Sys
  | .tick => { s with now := s.now + 1 }
  | .accept fd lobby =>
    { s with
      fdTable := Function.update s.fdTable fd (some s.nextConn)
      lobby := Function.update s.lobby s.nextConn lobby
      epoll := Function.update s.epoll fd (if lobby then some false else none)
      nextConn := s.nextConn + 1 }
  | .addClient c fd memory =>
    { s with
      registry := s.registry.add c (.new fd s.now memory.toJunk)
      heir := fun d => if memory.reused = some (s.heir d) then c else s.heir d }
  -- A descriptor that was closed in the meantime is neither added nor armed.
  | .epollAdd fd =>
    { s with epoll := Function.update s.epoll fd ((s.fdTable fd).map fun _ => true) }
  | .epollMod fd => { s with epoll := Function.update s.epoll fd ((s.epoll fd).map fun _ => true) }
  | .report fds =>
    { s with
      epoll := fun n => if n ∈ fds then some false else s.epoll n
      events := fds.filterMap fun fd => (s.fdTable fd).map (Ref.mk fd) }
  | .queueWrite => { s with events := s.events.tail, tasks := s.tasks ++ s.events.take 1 }
  | .takeTask => { s with tasks := s.tasks.tail }
  | .startSsl c => s.modifyClient c fun k => { k with ssl := true }
  | .authenticate c cn =>
    (s.modifyClient c fun k => { k with authStatus := .success, state := .idle }).emit
      (.verified c cn)
  | .receive c chunk => s.modifyClient c fun k =>
      { k with lastActivity := s.now, buffer := clientBufferAppend k.buffer chunk }
  | .consume c buffer => s.modifyClient c fun k => { k with buffer := buffer }
  | .mapName fd cn => { s with registry := (s.registry.setName fd cn).2 }
  | .copyName c cn => s.modifyClient (s.heir c) (·.copyHostname cn)
  | .unregister fd => { s with registry := (s.registry.unregister fd).2 }
  | .tearDown c => s.tearDown c
  | .closeLobby fd => s.closeFd fd
  | .subscribe origin c fd topic =>
    { s with
      topics := pubsubSubscribe s.topics fd topic
      log := s.entering c fd topic ++ .subscribed origin c fd topic :: s.log }
  | .unsubscribe c fd topic =>
    { s with topics := pubsubUnsubscribe s.topics fd topic }.emit (.unsubscribed c fd topic)
  | .unsubscribeAll fd =>
    { s with topics := pubsubUnsubscribeAll s.topics fd }.emit
      (.unsubscribedAll (s.fdTable fd) fd)
  | .store origin hostname key value =>
    { s with db := s.db.set hostname key value }.emit (.stored origin hostname key value)
  | .logMessage sender topic message => { s with db := s.db.logMessage sender topic message }
  | .emit e => s.emit e

/-- The effects of one step in order. -/
def applyAll (s : Sys) (effects : List Effect) : Sys := effects.foldl apply s

/-- A thread moves to another point. -/
def goto (s : Sys) (t : Thread) (p : Pc) : Sys := { s with pc := Function.update s.pc t p }

/-! ## What the operations leave alone -/

@[simp] theorem applyAll_cons (s : Sys) (e : Effect) (effects : List Effect) :
    s.applyAll (e :: effects) = (s.apply e).applyAll effects := rfl

/-- Effects move no thread. -/
@[simp] theorem pc_apply (s : Sys) (e : Effect) : (s.apply e).pc = s.pc := by
  cases e <;> rfl

@[simp] theorem pc_applyAll (s : Sys) (effects : List Effect) : (s.applyAll effects).pc = s.pc := by
  induction effects generalizing s with
  | nil => rfl
  | cons e effects ih => rw [applyAll_cons, ih, pc_apply]

@[simp] theorem pc_goto_self (s : Sys) (t : Thread) (p : Pc) : (s.goto t p).pc t = p :=
  Function.update_self ..

theorem pc_goto_of_ne (s : Sys) {t u : Thread} (h : u ≠ t) (p : Pc) : (s.goto t p).pc u = s.pc u :=
  Function.update_of_ne h ..

/-- What holds of the new point of a thread, and held of the points of the others. -/
theorem forall_pc_goto {P : Thread → Pc → Prop} {s s' : Sys} (hpc : s'.pc = s.pc) {t : Thread}
    {p : Pc} (hp : P t p) (hothers : ∀ u, u ≠ t → P u (s.pc u)) (u : Thread) :
    P u ((s'.goto t p).pc u) := by
  by_cases hu : u = t
  · rw [hu, pc_goto_self]
    exact hp
  · rw [pc_goto_of_ne s' hu, hpc]
    exact hothers u hu

@[simp] theorem client_modifyClient_self (s : Sys) (c : ConnId) (f : Client → Client) :
    (s.modifyClient c f).client c = f (s.client c) := Function.update_self ..

theorem client_modifyClient_of_ne (s : Sys) {c d : ConnId} (h : d ≠ c) (f : Client → Client) :
    (s.modifyClient c f).client d = s.client d := Function.update_of_ne h ..

/-- A part of the client records that an update keeps. -/
theorem client_modifyClient_eq {α : Type*} (s : Sys) (c d : ConnId) {f : Client → Client}
    {g : Client → α} (h : ∀ k, g (f k) = g k) :
    g ((s.modifyClient c f).client d) = g (s.client d) :=
  s.registry.client_modify_eq c d h

/-- A property that every effect of a list keeps. -/
theorem applyAll_induction {P : Sys → Prop} {effects : List Effect}
    (h : ∀ s, ∀ e ∈ effects, P s → P (s.apply e)) {s : Sys} (hs : P s) :
    P (s.applyAll effects) := by
  induction effects generalizing s with
  | nil => exact hs
  | cons e effects ih =>
    refine ih (fun s e' he' => h s e' (List.mem_cons_of_mem e he')) ?_
    exact h s e List.mem_cons_self hs

end Sys

end AdMQ
