import AdMQ.Broker.Client.Registry
import AdMQ.Core.Locking

/-!
# The lock protocol of the broker

Every thread of the broker as the sequence in which it acquires and releases
`clients_rwlock`, the mutexes of the clients and `pubsub_lock`. The clients that
a call finds are part of a task, so that the tasks cover whatever the lookups
may return. The discipline lists which locks are held at each kind of
acquisition; every task follows it.
-/

namespace AdMQ

open Core

/-- A lock in the mode in which it is taken. -/
inductive Lock where
  /-- `clients_rwlock`, for reading. -/
  | clientsRead
  /-- `clients_rwlock`, for writing. -/
  | clientsWrite
  /-- The mutex of a client. -/
  | client (c : ConnId)
  /-- `pubsub_lock`. -/
  | pubsub
  deriving DecidableEq

/-- Which held lock blocks an acquisition: readers share, all else excludes. -/
def Lock.conflict : Lock → Lock → Prop
  | .clientsRead, l => l = .clientsWrite
  | .clientsWrite, l => l = .clientsRead ∨ l = .clientsWrite
  | .client c, l => l = .client c
  | .pubsub, l => l = .pubsub

instance : DecidableRel Lock.conflict := fun a b =>
  match a with
  | .clientsRead => inferInstanceAs (Decidable (b = _))
  | .clientsWrite => inferInstanceAs (Decidable (b = _ ∨ b = _))
  | .client c => inferInstanceAs (Decidable (b = Lock.client c))
  | .pubsub => inferInstanceAs (Decidable (b = Lock.pubsub))

/-- A sequence of lock operations. -/
abbrev LockProgram := List (LockOp Lock)

/-! ## Calls -/

/-- `client_add`. -/
def clientAddLocks : LockProgram := [.acquire .clientsWrite, .release .clientsWrite]

/-- `client_get_and_lock_by_fd` and `client_get_and_lock_by_hostname`: the mutex of the client
found is taken under the read lock. -/
def getAndLockLocks : Option ConnId → LockProgram
  | none => [.acquire .clientsRead, .release .clientsRead]
  | some c => [.acquire .clientsRead, .acquire (.client c), .release .clientsRead]

/-- `client_unlock`. -/
def unlockLocks : Option ConnId → LockProgram
  | none => []
  | some c => [.release (.client c)]

/-- The section on the map and then the section on the client, as in `client_remove` and
`client_set_hostname`. -/
def mapThenClientLocks : Option ConnId → LockProgram
  | none => [.acquire .clientsWrite, .release .clientsWrite]
  | some c => [.acquire .clientsWrite, .release .clientsWrite, .acquire (.client c),
      .release (.client c)]

/-- `client_remove`. -/
def clientRemoveLocks (found : Option ConnId) : LockProgram := mapThenClientLocks found

/-- `client_set_hostname`. -/
def clientSetHostnameLocks (found : Option ConnId) : LockProgram := mapThenClientLocks found

/-- `pubsub_subscribe`, `pubsub_unsubscribe` and `pubsub_unsubscribe_all`. -/
def pubsubLocks : LockProgram := [.acquire .pubsub, .release .pubsub]

/-- One subscriber in `pubsub_publish` or `pubsub_print_status`. -/
def subscriberLocks (found : Option ConnId) : LockProgram :=
  getAndLockLocks found ++ unlockLocks found

/-- `pubsub_publish` and `pubsub_print_status`: the subscribers are visited under the lock. -/
def pubsubWalkLocks (found : List (Option ConnId)) : LockProgram :=
  .acquire .pubsub :: (found.flatMap subscriberLocks ++ [.release .pubsub])

/-- The loop over all clients in `client_manager_sweep_inactive` and
`client_manager_print_status`. -/
def registryWalkLocks (clients : List ConnId) : LockProgram :=
  .acquire .clientsRead ::
    (clients.flatMap (fun c => [.acquire (.client c), .release (.client c)]) ++
      [.release .clientsRead])

/-! ## Tasks -/

/-- What a command line makes a worker do with locks. -/
inductive LineLocks where
  /-- A line that takes none of the locks. -/
  | plain
  /-- An allowed SUBSCRIBE or UNSUBSCRIBE. -/
  | subscription
  /-- An allowed PUBLISH: the subscribers found, and the client found afterwards. -/
  | publish (found : List (Option ConnId)) (again : Option ConnId)
  deriving DecidableEq

/-- The command lines of a client whose mutex the worker holds. When a PUBLISH does not find
the client again, the worker removes whatever is registered then. -/
def linesLocks (removed : Option ConnId) : ConnId → List LineLocks → LockProgram
  | c, [] => [.release (.client c)]
  | c, .plain :: rest => linesLocks removed c rest
  | c, .subscription :: rest => pubsubLocks ++ linesLocks removed c rest
  | c, .publish found (some d) :: rest =>
    .release (.client c) ::
      (pubsubWalkLocks found ++ (getAndLockLocks (some d) ++ linesLocks removed d rest))
  | c, .publish found none :: _ =>
    .release (.client c) ::
      (pubsubWalkLocks found ++
        (getAndLockLocks none ++ (pubsubLocks ++ clientRemoveLocks removed)))

/-- How a worker goes on with the client of a vault task. -/
inductive VaultLocks where
  /-- The handshake or the read is to be continued. -/
  | again
  /-- The handshake or the verification failed. -/
  | rejected (removed : Option ConnId)
  /-- The client was verified. -/
  | verified (named : Option ConnId)
  /-- The connection was closed. -/
  | closed (removed : Option ConnId)
  /-- Data was read. -/
  | data (lines : List LineLocks) (removed : Option ConnId)
  deriving DecidableEq

/-- What a thread does between two waits for work. -/
inductive LockTask where
  /-- The main thread accepts a vault connection. -/
  | accept
  /-- A worker whose task no client belongs to. -/
  | vaultNone
  | vault (c : ConnId) (next : VaultLocks)
  /-- A sweep: the clients visited, and for each swept descriptor the client removed. -/
  | sweep (clients : List ConnId) (removed : List (Option ConnId))
  /-- CLI `STATUS`. -/
  | status (clients : List ConnId) (found : List (Option ConnId))
  /-- CLI `PUBLISH`. -/
  | cliPublish (found : List (Option ConnId))
  /-- CLI `SUBSCRIBE` and `UNSUBSCRIBE`. -/
  | cliSubscription (found : Option ConnId)
  deriving DecidableEq

/-- The kinds of threads. -/
inductive ThreadRole where
  | main
  | worker
  | sweeper
  | cli
  deriving DecidableEq

/-- Which thread does which task. -/
def LockTask.role : LockTask → ThreadRole
  | accept => .main
  | vaultNone => .worker
  | vault _ _ => .worker
  | sweep _ _ => .sweeper
  | status _ _ => .cli
  | cliPublish _ => .cli
  | cliSubscription _ => .cli

/-- What follows the lookup of a vault task. -/
def VaultLocks.program (c : ConnId) : VaultLocks → LockProgram
  | again => unlockLocks (some c)
  | rejected removed => unlockLocks (some c) ++ clientRemoveLocks removed
  | verified named => unlockLocks (some c) ++ clientSetHostnameLocks named
  | closed removed => unlockLocks (some c) ++ (pubsubLocks ++ clientRemoveLocks removed)
  | data lines removed => linesLocks removed c lines

/-- The lock operations of a task. -/
def LockTask.program : LockTask → LockProgram
  | accept => clientAddLocks
  | vaultNone => getAndLockLocks none
  | vault c next => getAndLockLocks (some c) ++ next.program c
  | sweep clients removed =>
    registryWalkLocks clients ++ removed.flatMap fun r => pubsubLocks ++ clientRemoveLocks r
  | status clients found => registryWalkLocks clients ++ pubsubWalkLocks found
  | cliPublish found => pubsubWalkLocks found
  | cliSubscription none => getAndLockLocks none
  | cliSubscription (some c) => getAndLockLocks (some c) ++ (unlockLocks (some c) ++ pubsubLocks)

/-! ## The discipline -/

/-- Which locks are held when a lock is acquired. -/
def Lock.allowed (held : List Lock) : Lock → Prop
  | .clientsRead => held = [] ∨ held = [.pubsub]
  | .clientsWrite => held = []
  | .client _ => held = [] ∨ held = [.clientsRead] ∨ held = [.clientsRead, .pubsub]
  | .pubsub => held = [] ∨ ∃ c, held = [.client c]

/-- A program that follows the discipline from some locks to others. -/
abbrev LocksFrom (held : List Lock) (p : LockProgram) (final : List Lock) : Prop :=
  Follows Lock.allowed held p final

theorem release_self (l : Lock) (held : List Lock) : LocksFrom (l :: held) [.release l] held := by
  refine .release (List.mem_cons_self ..) ?_
  rw [List.erase_cons_head]
  exact .done held

/-- A lookup outside the publication loop. -/
theorem getAndLock_follows (found : Option ConnId) :
    LocksFrom [] (getAndLockLocks found) (found.elim [] fun c => [.client c]) := by
  cases found with
  | none => exact .acquire (Or.inl rfl) (release_self _ _)
  | some c =>
    refine .acquire (Or.inl rfl) (.acquire (Or.inr (Or.inl rfl)) (.release (by simp) ?_))
    exact .done _

/-- A lookup for one subscriber, with `pubsub_lock` held. -/
theorem subscriber_follows (found : Option ConnId) :
    LocksFrom [.pubsub] (subscriberLocks found) [.pubsub] := by
  cases found with
  | none => exact .acquire (Or.inr rfl) (release_self _ _)
  | some c =>
    refine .acquire (Or.inr rfl) (.acquire (Or.inr (Or.inr rfl)) (.release (by simp) ?_))
    exact release_self _ _

theorem mapThenClient_follows (found : Option ConnId) :
    LocksFrom [] (mapThenClientLocks found) [] := by
  have hmap : LocksFrom [] [.acquire .clientsWrite, .release .clientsWrite] [] :=
    .acquire rfl (release_self _ _)
  cases found with
  | none => exact hmap
  | some c => exact hmap.append (.acquire (Or.inl rfl) (release_self _ _))

/-- A section of the topic table, alone or with the mutex of a client held. -/
theorem pubsub_follows {held : List Lock} (h : held = [] ∨ ∃ c, held = [.client c]) :
    LocksFrom held pubsubLocks held := .acquire h (release_self _ _)

theorem pubsubWalk_follows (found : List (Option ConnId)) :
    LocksFrom [] (pubsubWalkLocks found) [] :=
  .acquire (Or.inl rfl) ((Follows.flatMap found subscriber_follows).append (release_self _ _))

theorem registryWalk_follows (clients : List ConnId) :
    LocksFrom [] (registryWalkLocks clients) [] :=
  .acquire (Or.inl rfl) ((Follows.flatMap clients fun _ =>
    .acquire (Or.inr (Or.inl rfl)) (release_self _ _)).append (release_self _ _))

theorem lines_follows (removed : Option ConnId) (c : ConnId) (lines : List LineLocks) :
    LocksFrom [.client c] (linesLocks removed c lines) [] := by
  induction lines generalizing c with
  | nil => exact release_self _ _
  | cons line rest ih =>
    cases line with
    | plain => exact ih c
    | subscription => exact (pubsub_follows (Or.inr ⟨c, rfl⟩)).append (ih c)
    | publish found again =>
      have hwalk := pubsubWalk_follows found
      cases again with
      | some d =>
        exact (release_self (.client c) []).append
          (hwalk.append ((getAndLock_follows (some d)).append (ih d)))
      | none =>
        exact (release_self (.client c) []).append (hwalk.append ((getAndLock_follows none).append
          ((pubsub_follows (Or.inl rfl)).append (mapThenClient_follows removed))))

theorem vault_follows (c : ConnId) (next : VaultLocks) :
    LocksFrom [.client c] (next.program c) [] := by
  have hunlock : LocksFrom [.client c] (unlockLocks (some c)) [] := release_self _ _
  cases next with
  | again => exact hunlock
  | rejected removed => exact hunlock.append (mapThenClient_follows removed)
  | verified named => exact hunlock.append (mapThenClient_follows named)
  | closed removed =>
    exact hunlock.append ((pubsub_follows (Or.inl rfl)).append (mapThenClient_follows removed))
  | data lines removed => exact lines_follows removed c lines

/-- Every task starts and ends without locks and follows the discipline. -/
theorem LockTask.program_follows (task : LockTask) : LocksFrom [] task.program [] := by
  cases task with
  | accept => exact .acquire rfl (release_self _ _)
  | vaultNone => exact getAndLock_follows none
  | vault c next => exact (getAndLock_follows (some c)).append (vault_follows c next)
  | sweep clients removed =>
    exact (registryWalk_follows clients).append (Follows.flatMap removed fun r =>
      (pubsub_follows (Or.inl rfl)).append (mapThenClient_follows r))
  | status clients found => exact (registryWalk_follows clients).append (pubsubWalk_follows found)
  | cliPublish found => exact pubsubWalk_follows found
  | cliSubscription found =>
    cases found with
    | none => exact getAndLock_follows none
    | some c =>
      exact (getAndLock_follows (some c)).append
        ((release_self (.client c) []).append (pubsub_follows (Or.inl rfl)))

end AdMQ
