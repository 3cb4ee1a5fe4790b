import AdMQ.Broker.Threads.Subscribers

/-!
# Deliveries reach the connections that subscribed

In every run whose subscriptions are entered for open clients, the descriptors in
the subscriber lists belong to the connections they were entered for, and a
publication reaches nobody who did not subscribe. Without the condition a
descriptor number outlives its connection: the operator's `SUBSCRIBE` looks a
client up, drops the lock and enters the number, and by then the number may
belong to somebody else.
-/

namespace AdMQ

open Core

variable {policy : Policy} {s : Sys}

theorem Consistent.step (h : Consistent policy s) {s' : Sys} {a : Act} (hok : s.Orderly a)
    (hs : s.step a = some s') : Consistent policy s' :=
  ⟨h.owned.step hok.name hs, h.authorised.step hs, h.lists_step hok hs⟩

/-- The effects that add nothing to a list. -/
def Effect.addsNothing : Effect → Bool
  | .subscribe .. => false
  | _ => true

theorem mem_subscribers_of_applyAll {effects : List Effect}
    (h : ∀ e ∈ effects, e.addsNothing = true) {topic : CStr} {n : Int}
    (hn : n ∈ (s.applyAll effects).subscribers topic) : n ∈ s.subscribers topic := by
  revert hn
  refine Sys.applyAll_induction
    (P := fun s' => n ∈ s'.subscribers topic → n ∈ s.subscribers topic) ?_
    fun hn => hn
  intro s' e he hs' hn
  cases e with
  | subscribe origin c fd topic => cases h _ he
  | unsubscribe c fd topic => exact hs' (PubSub.mem_of_mem_pubsubUnsubscribe hn)
  | unsubscribeAll fd => exact hs' (PubSub.mem_of_mem_pubsubUnsubscribeAll hn)
  | _ => exact hs' hn

/-- A descriptor comes into a list only through `pubsub_subscribe`. -/
theorem mem_subscribers_of_step (h : AuthorisedSys policy s) {s' : Sys} {a : Act}
    (hs : s.step a = some s') {topic : CStr} {n : Int} (hn : n ∈ s'.subscribers topic) :
    n ∈ s.subscribers topic ∨ ∃ r origin c, s.pc a.thread = .subscribe r origin c n topic := by
  obtain ⟨effects, next, hmove, rfl⟩ := Sys.exists_move_of_step hs
  have hpoint := h.points a.thread
  cases hmove with
  | subscribe hpc hfree | cliSubscribe hpc hfree =>
    rw [hpc] at hpoint
    rcases PubSub.mem_pubsubSubscribe hpoint.2 hn with hold | ⟨rfl, rfl⟩
    · exact Or.inl hold
    · exact Or.inr ⟨_, _, _, hpc⟩
  | answered hpc hbuf heffects =>
    refine Or.inl (mem_subscribers_of_applyAll ?_ hn)
    intro e he
    rcases List.mem_cons.mp he with rfl | he
    · rfl
    · cases heffects e he <;> rfl
  | _ =>
    refine Or.inl (mem_subscribers_of_applyAll ?_ hn)
    simp [Effect.addsNothing]

/-! ## Guarded runs -/

/-- A subscription is entered for a client that is open, has the descriptor and is not being
removed. -/
def Sys.SubscribesForOwner (s : Sys) (a : Act) : Prop :=
  match s.pc a.thread with
  | .subscribe _ _ c fd _ =>
    0 < fd ∧ (s.client c).fd = fd ∧ ∀ t, (s.pc t).closing s ≠ some fd
  | _ => True

/-- The condition on a step: subscriptions are entered for their owners, handshakes fail only
for descriptors in no list, and accepted common names are no descriptor keys. -/
def Sys.EntriesGuarded (s : Sys) (a : Act) : Prop :=
  s.SubscribesForOwner a ∧ s.FailsUnsubscribed a ∧ a.NamePlain

theorem Sys.SubscribesForOwner.open_client {a : Act} (h : s.SubscribesForOwner a) :
    s.SubscribesOpen a := by
  cases hpc : s.pc a.thread with
  | subscribe r origin c fd topic =>
    rw [Sys.SubscribesForOwner, hpc] at h
    rw [Sys.SubscribesOpen, hpc]
    exact fun _ => h.2
  | _ =>
    rw [Sys.SubscribesOpen, hpc]
    trivial

theorem Sys.EntriesGuarded.orderly {a : Act} (h : s.EntriesGuarded a) : s.Orderly a :=
  ⟨h.1.open_client, h.2.1, h.2.2⟩

/-- What guarded runs keep: beside the accounts, every descriptor in a list is a real one. -/
structure GuardedSys (policy : Policy) (s : Sys) : Prop where
  consistent : Consistent policy s
  positive : ∀ topic n, n ∈ s.subscribers topic → 0 < n

theorem GuardedSys.step (h : GuardedSys policy s) {s' : Sys} {a : Act} (hok : s.EntriesGuarded a)
    (hs : s.step a = some s') : GuardedSys policy s' := by
  refine ⟨h.consistent.step hok.orderly hs, ?_⟩
  intro topic n hn
  rcases mem_subscribers_of_step h.consistent.authorised hs hn with hold | ⟨r, origin, c, hpc⟩
  · exact h.positive topic n hold
  · have howner := hok.1
    rw [Sys.SubscribesForOwner, hpc] at howner
    exact howner.1

instance (s : Sys) (fd : Int) : Decidable (s.Unsubscribed fd) :=
  inferInstanceAs (Decidable (∀ topic ∈ s.topics.topics.live, fd ∉ topic.subscribers.live))

instance (s : Sys) (a : Act) : Decidable (s.SubscribesForOwner a) := by
  unfold Sys.SubscribesForOwner
  cases s.pc a.thread with
  | subscribe r origin c fd topic => exact inferInstanceAs (Decidable (_ ∧ _ ∧ _))
  | _ => exact isTrue trivial

instance (s : Sys) (a : Act) : Decidable (s.FailsUnsubscribed a) := by
  unfold Sys.FailsUnsubscribed
  cases s.pc a.thread with
  | locked r c =>
    cases a.input with
    | sslError => exact inferInstanceAs (Decidable (_ → _))
    | badCertificate => exact inferInstanceAs (Decidable (_ → _))
    | _ => exact isTrue trivial
  | _ => exact isTrue trivial

instance (a : Act) : Decidable a.NamePlain := by
  unfold Act.NamePlain
  cases a.input with
  | goodCertificate cn => exact inferInstanceAs (Decidable (_ = _))
  | _ => exact isTrue trivial

instance (s : Sys) (a : Act) : Decidable (s.EntriesGuarded a) :=
  inferInstanceAs (Decidable (_ ∧ _ ∧ _))

/-- The acts of one thread that need nothing from the environment. -/
def Thread.going (t : Thread) (n : Nat) : List Act := List.replicate n ⟨t, .go⟩

/-- A connection is accepted on the vault port. -/
def acceptActs (fd : Int) : List Act :=
  [⟨.main, .acceptVault fd⟩, ⟨.main, .memory .zero⟩, ⟨.main, .go⟩]

/-- An event of a connection is reported and becomes a task. -/
def reportActs (fd : Int) : List Act := [⟨.main, .events [fd]⟩, ⟨.main, .go⟩]

/-- A worker takes the event of a connection and locks its client. -/
def eventActs (fd : Int) : List Act := reportActs fd ++ Thread.going (.worker 0) 2

/-- The handshake of a connection is done, and its client gets its name. -/
def handshakeActs (fd : Int) (cn : CStr) : List Act :=
  eventActs fd ++ ⟨.worker 0, .goodCertificate cn⟩ :: Thread.going (.worker 0) 3

/-- The peer closes a connection, and its client is removed. -/
def hangupActs (fd : Int) : List Act :=
  eventActs fd ++ ⟨.worker 0, .sslError⟩ :: Thread.going (.worker 0) 4

/-- A policy without roles. -/
def Policy.none : Policy := loadPolicy []

/-- A database without rows. -/
def Database.empty : Database := ⟨fun _ _ => Option.none, []⟩

end AdMQ
