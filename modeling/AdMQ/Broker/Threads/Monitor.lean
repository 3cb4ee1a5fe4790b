import AdMQ.Broker.Threads.Deliveries

/-!
# The broker as a reference monitor

Runs in which no two threads are in the middle of something: a worker finishes
its task, the operator's command and the sweep run to their ends before another
thread moves. In such runs the access policy is enforced completely, except that
a failed handshake drops its connection without a look at the subscriber lists.
-/

namespace AdMQ

open Core

variable {policy : Policy} {s : Sys}

/-- The step of a thread while all others wait for something to do. -/
def Sys.Serial (s : Sys) (a : Act) : Prop := ∀ t, t ≠ a.thread → s.pc t = .idle

/-- The condition on a step of a serial run: handshakes fail only for descriptors in no list,
and accepted common names are no descriptor keys. -/
def Sys.SerialGuarded (s : Sys) (a : Act) : Prop :=
  s.Serial a ∧ s.FailsUnsubscribed a ∧ a.NamePlain

/-- What serial runs keep: a subscription in progress has the descriptor of its client. -/
structure SerialSys (policy : Policy) (s : Sys) : Prop where
  consistent : Consistent policy s
  subscribing : ∀ t r origin c fd topic, s.pc t = .subscribe r origin c fd topic →
    (s.client c).fd = fd

/-- A thread that comes to a subscription has just read the descriptor of the client. -/
theorem fd_of_move_subscribe {t : Thread} {input : Input} {effects : List Effect} {r : Option Ref}
    {origin : Origin} {c : ConnId} {fd : Int} {topic : CStr}
    (h : Move s t input effects (.subscribe r origin c fd topic)) :
    ((s.applyAll effects).client c).fd = fd := by
  cases h with
  | lineSubscribe hpc hline hcan hlen =>
    exact (sameOwners_applyAll s (List.all_eq_true.mp rfl)).fd c
  | cliFoundSubscribe ht hpc hget hfree hlen => rfl

/-- In a serial run nobody removes a descriptor while it is subscribed. -/
theorem SerialSys.orderly (h : SerialSys policy s) {a : Act} (hok : s.SerialGuarded a) :
    s.Orderly a := by
  refine ⟨?_, hok.2.1, hok.2.2⟩
  cases hpc : s.pc a.thread with
  | subscribe r origin c fd topic =>
    rw [Sys.SubscribesOpen, hpc]
    refine fun _ => ⟨h.subscribing _ _ _ _ _ _ hpc, fun t => ?_⟩
    by_cases ht : t = a.thread
    · rw [ht, hpc]
      intro hclosing
      cases hclosing
    · rw [hok.1 t ht]
      intro hclosing
      cases hclosing
  | _ =>
    rw [Sys.SubscribesOpen, hpc]
    trivial

theorem SerialSys.step (h : SerialSys policy s) {s' : Sys} {a : Act} (hok : s.SerialGuarded a)
    (hs : s.step a = some s') : SerialSys policy s' := by
  refine ⟨h.consistent.step (h.orderly hok) hs, ?_⟩
  intro t r origin c fd topic hpc
  obtain ⟨effects, next, hmove, rfl⟩ := Sys.exists_move_of_step hs
  by_cases ht : t = a.thread
  · rw [ht, Sys.pc_goto_self] at hpc
    rw [hpc] at hmove
    exact fd_of_move_subscribe hmove
  · rw [Sys.pc_goto_of_ne _ ht, Sys.pc_applyAll, hok.1 t ht] at hpc
    cases hpc

instance (s : Sys) (a : Act) : Decidable (s.Serial a) :=
  inferInstanceAs (Decidable (∀ t, t ≠ a.thread → s.pc t = .idle))

instance (s : Sys) (a : Act) : Decidable (s.SerialGuarded a) :=
  inferInstanceAs (Decidable (_ ∧ _ ∧ _))

end AdMQ
