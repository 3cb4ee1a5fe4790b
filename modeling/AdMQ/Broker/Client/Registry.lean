import AdMQ.Broker.Client.Buffer
import AdMQ.Broker.Client.Hash

/-!
# The client registry

The critical sections of `client_manager.c`, each a function on the map and the
client records. A client is a heap object and is named by a connection number
that is never used twice, so that two clients of one descriptor stay apart; its
record survives its removal, as the memory it stands for is only freed.
-/

namespace AdMQ

open Core

/-- The identity of a connection and of the client object made for it. -/
abbrev ConnId := Nat

/-- `state` of a client. -/
inductive ClientState where
  | disconnected
  | idle
  deriving DecidableEq

/-- `auth_status` of a client. -/
inductive AuthStatus where
  | pending
  | success
  deriving DecidableEq

/-- `Client`. The connection type is left out: only vault connections have a client. -/
structure Client where
  fd : Int
  state : ClientState
  authStatus : AuthStatus
  /-- Whether `ssl` is set. -/
  ssl : Bool
  /-- The string that a reader of the hostname field sees. -/
  hostname : CStr
  /-- What such a reader sees from the last byte of the field on: nothing ever writes it. -/
  hostnameTail : CStr
  lastActivity : Nat
  buffer : ClientBuffer
  deriving DecidableEq

/-- What `malloc` leaves in the parts of a client that `client_add` does not write. -/
structure Junk where
  bytes : List UInt8
  length_bytes : bytes.length = bufferSize
  tail : CStr

/-- Memory that happens to be cleared. -/
def Junk.zero : Junk := ⟨List.replicate bufferSize 0, length_zeroBytes, []⟩

/-- The client that `client_add` makes. -/
def Client.new (fd : Int) (now : Nat) (junk : Junk) : Client where
  fd := fd
  state := .idle
  authStatus := .pending
  ssl := false
  hostname := []
  hostnameTail := junk.tail
  lastActivity := now
  buffer := ⟨junk.bytes, 0, junk.length_bytes, bufferSize_pos, Or.inl rfl⟩

/-- `strncpy(c->hostname, hostname, 127)`: a name that fills the field is not terminated. -/
def Client.copyHostname (c : Client) (hostname : CStr) : Client :=
  { c with hostname :=
    if hostname.length < 127 then hostname else hostname.take 127 ++ c.hostnameTail }

/-- The client after `client_remove` tore it down. -/
def Client.tornDown (c : Client) : Client :=
  { c with fd := if 0 < c.fd then -1 else c.fd, state := .disconnected, ssl := false }

/-- `clients_map` and the client objects. -/
structure Registry where
  clientsMap : HashTable ConnId
  client : ConnId → Client

/-- `client_manager_init`. -/
def Registry.init : Registry := ⟨createTable ConnId, fun _ => .new 0 0 .zero⟩

/-- Rewrite one client. -/
def Registry.modify (r : Registry) (c : ConnId) (f : Client → Client) : Registry :=
  { r with client := Function.update r.client c (f (r.client c)) }

/-- The client registered under a descriptor. -/
def Registry.byFd (r : Registry) (fd : Int) : Option ConnId := r.clientsMap.get (fdKey fd)

/-- The client registered under a hostname. -/
def Registry.byHostname (r : Registry) (hostname : CStr) : Option ConnId :=
  r.clientsMap.get hostname

/-- `client_add`, for a new client object. -/
def Registry.add (r : Registry) (c : ConnId) (client : Client) : Registry :=
  ⟨r.clientsMap.set (fdKey client.fd) c, Function.update r.client c client⟩

/-- The map section of `client_set_hostname`. -/
def Registry.setName (r : Registry) (fd : Int) (hostname : CStr) : Option ConnId × Registry :=
  match r.byFd fd with
  | none => (none, r)
  | some c => (some c, { r with clientsMap := r.clientsMap.set hostname c })

/-- The entries that `client_remove` deletes for a client: the hostname only while it still
leads to this client. -/
def Registry.dropEntries (r : Registry) (fd : Int) (c : ConnId) : HashTable ConnId :=
  let rest := r.clientsMap.del (fdKey fd)
  if 0 < (r.client c).hostname.length ∧ rest.get (r.client c).hostname = some c then
    rest.del (r.client c).hostname
  else rest

/-- The map section of `client_remove`. -/
def Registry.unregister (r : Registry) (fd : Int) : Option ConnId × Registry :=
  match r.byFd fd with
  | none => (none, r)
  | some c => (some c, { r with clientsMap := r.dropEntries fd c })

/-! ## What the sections leave in the map -/

@[simp] theorem Registry.client_modify_self (r : Registry) (c : ConnId) (f : Client → Client) :
    (r.modify c f).client c = f (r.client c) := Function.update_self ..

theorem Registry.client_modify_of_ne (r : Registry) {c d : ConnId} (h : d ≠ c)
    (f : Client → Client) : (r.modify c f).client d = r.client d := Function.update_of_ne h ..

/-- A part of the client records that an update keeps. -/
theorem Registry.client_modify_eq {α : Type*} (r : Registry) (c d : ConnId) {f : Client → Client}
    {g : Client → α} (h : ∀ k, g (f k) = g k) : g ((r.modify c f).client d) = g (r.client d) := by
  by_cases hd : d = c
  · rw [hd, Registry.client_modify_self, h]
  · rw [Registry.client_modify_of_ne r hd]

@[simp] theorem Registry.client_add_self (r : Registry) (c : ConnId) (client : Client) :
    (r.add c client).client c = client := Function.update_self ..

theorem Registry.client_add_of_ne (r : Registry) {c d : ConnId} (h : d ≠ c) (client : Client) :
    (r.add c client).client d = r.client d := Function.update_of_ne h ..

theorem Registry.get_add (r : Registry) (c : ConnId) (client : Client) (key : CStr) :
    (r.add c client).clientsMap.get key =
      if key = fdKey client.fd then some c else r.clientsMap.get key :=
  ChainTable.get_set ..

/-- Both map sections work on the client registered under the descriptor. -/
@[simp] theorem Registry.fst_setName (r : Registry) (fd : Int) (hostname : CStr) :
    (r.setName fd hostname).1 = r.byFd fd := by
  rw [Registry.setName]
  cases r.byFd fd <;> rfl

@[simp] theorem Registry.fst_unregister (r : Registry) (fd : Int) :
    (r.unregister fd).1 = r.byFd fd := by
  rw [Registry.unregister]
  cases r.byFd fd <;> rfl

@[simp] theorem Registry.client_setName (r : Registry) (fd : Int) (hostname : CStr) :
    (r.setName fd hostname).2.client = r.client := by
  rw [Registry.setName]
  cases r.byFd fd <;> rfl

@[simp] theorem Registry.client_unregister (r : Registry) (fd : Int) :
    (r.unregister fd).2.client = r.client := by
  rw [Registry.unregister]
  cases r.byFd fd <;> rfl

/-- A removal deletes the entry of the descriptor, and that of the hostname if it still leads to
the client. -/
theorem Registry.get_dropEntries (r : Registry) (fd : Int) (c : ConnId) (key : CStr) :
    (r.dropEntries fd c).get key =
      if key = fdKey fd ∨ key = (r.client c).hostname ∧ key ≠ [] ∧ r.clientsMap.get key = some c
      then none else r.clientsMap.get key := by
  rw [Registry.dropEntries]
  by_cases hfd : key = fdKey fd
  · rw [if_pos (Or.inl hfd)]
    split
    · rw [ChainTable.get_del, ChainTable.get_del]
      simp [hfd]
    · rw [ChainTable.get_del]
      simp [hfd]
  · have hrest : (r.clientsMap.del (fdKey fd)).get key = r.clientsMap.get key := by
      rw [ChainTable.get_del, if_neg hfd]
    by_cases hname : key = (r.client c).hostname
    · rw [← hname, hrest]
      simp only [List.length_pos_iff, hfd, false_or, true_and]
      by_cases hdrop : key ≠ [] ∧ r.clientsMap.get key = some c
      · rw [if_pos hdrop, if_pos hdrop, ChainTable.get_del, if_pos rfl]
      · rw [if_neg hdrop, if_neg hdrop, hrest]
    · have hkeep : ¬ (key = fdKey fd ∨ key = (r.client c).hostname ∧ key ≠ [] ∧
          r.clientsMap.get key = some c) := by
        rintro (heq | ⟨heq, -⟩)
        · exact hfd heq
        · exact hname heq
      rw [if_neg hkeep]
      split
      · rw [ChainTable.get_del, if_neg hname, hrest]
      · exact hrest

/-- Removing a client only deletes entries. -/
theorem Registry.get_of_get_dropEntries {r : Registry} {fd : Int} {c d : ConnId} {key : CStr}
    (h : (r.dropEntries fd c).get key = some d) : r.clientsMap.get key = some d := by
  rw [Registry.get_dropEntries] at h
  split at h
  · cases h
  · exact h

/-- After a removal neither the descriptor nor the hostname leads to the client. -/
theorem Registry.get_dropEntries_ne {r : Registry} {fd : Int} {c : ConnId} {key : CStr}
    (hkey : key = fdKey fd ∨ key = (r.client c).hostname ∧ key ≠ []) :
    (r.dropEntries fd c).get key ≠ some c := by
  intro h
  have hget := Registry.get_of_get_dropEntries h
  rw [Registry.get_dropEntries, if_pos] at h
  · cases h
  · exact hkey.imp_right fun ⟨hname, hne⟩ => ⟨hname, hne, hget⟩

/-- A name that fits is stored as it is. -/
theorem Client.hostname_copyHostname (c : Client) {hostname : CStr} (h : hostname.length < 127) :
    (c.copyHostname hostname).hostname = hostname := if_pos h

end AdMQ
