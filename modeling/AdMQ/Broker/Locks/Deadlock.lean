import AdMQ.Broker.Locks.Protocol
import AdMQ.Core.Transition

/-!
# Deadlocks of the lock protocol

A worker executes SUBSCRIBE and UNSUBSCRIBE with the mutex of its client held
and takes `pubsub_lock` inside, while a publication holds `pubsub_lock` and takes
the mutexes of its subscribers. The two can wait for each other. This is the only
way to a deadlock: as long as no worker comes to `pubsub_lock` with the mutex of
a client that the publication under way has yet to lock, no threads wait for each
other in a cycle.
-/

namespace AdMQ

open Core

variable {n : Nat}

/-- The threads of the broker with the locks they hold and have yet to take. -/
abbrev LockThreads (n : Nat) := Fin n → Holder Lock

/-- A thread takes up a task, or does its next lock operation. -/
inductive LockAct (n : Nat) where
  | start (t : Fin n) (task : LockTask)
  | advance (t : Fin n)

/-- No thread has anything to do. -/
def LockThreads.idle (n : Nat) : LockThreads n := fun _ => ⟨[], []⟩

/-- One step of a thread of a given role. -/
def lockStep (roles : Fin n → ThreadRole) (s : LockThreads n) : LockAct n → Option (LockThreads n)
  | .start t task =>
    if (s t).todo = [] ∧ task.role = roles t then
      some (Function.update s t ⟨(s t).held, task.program⟩)
    else none
  | .advance t => advance Lock.conflict s t

/-- The clients that a thread has yet to lock before it releases `pubsub_lock`. -/
def walkTargets (todo : LockProgram) : List ConnId :=
  (todo.takeWhile (· ≠ .release .pubsub)).filterMap fun
    | .acquire (.client c) => some c
    | _ => none

/-- The clients whose mutexes are among some locks. -/
def heldClients (held : List Lock) : List ConnId :=
  held.filterMap fun
    | .client c => some c
    | _ => none

/-- A thread is about to take `pubsub_lock` and holds the mutex of a client. -/
def AtPubsub (s : LockThreads n) (t : Fin n) (c : ConnId) : Prop :=
  (s t).todo.head? = some (.acquire .pubsub) ∧ .client c ∈ (s t).held

/-- If the next operation takes `pubsub_lock`, then no worker stands there with the mutex of a
client that the thread will lock before it releases `pubsub_lock`. -/
def WalkStartsClear (s : LockThreads n) (t : Fin n) : Prop :=
  (s t).todo.head? = some (.acquire .pubsub) →
    ∀ c ∈ walkTargets (s t).todo.tail, ∀ u, ¬ AtPubsub s u c

/-- If the next operation brings the thread to `pubsub_lock` with the mutex of a client held,
then the thread that holds `pubsub_lock` has not yet to lock that client. -/
def SubscriptionComesClear (s : LockThreads n) (t : Fin n) : Prop :=
  (s t).todo.tail.head? = some (.acquire .pubsub) →
    ∀ c ∈ heldClients (s t).heldNext, ∀ u, u ≠ t → .pubsub ∈ (s u).held →
      c ∉ walkTargets (s u).todo

/-- Subscriptions with the mutex of a client held keep clear of publications and status
listings that lock this client, and these of them. -/
def SubscriptionsApart (s : LockThreads n) : LockAct n → Prop
  | .start _ _ => True
  | .advance t => WalkStartsClear s t ∧ SubscriptionComesClear s t

instance (s : LockThreads n) (t : Fin n) (c : ConnId) : Decidable (AtPubsub s t c) :=
  inferInstanceAs (Decidable (_ ∧ _))

instance (s : LockThreads n) (t : Fin n) : Decidable (WalkStartsClear s t) :=
  inferInstanceAs (Decidable (_ → _))

instance (s : LockThreads n) (t : Fin n) : Decidable (SubscriptionComesClear s t) :=
  inferInstanceAs (Decidable (_ → _))

instance (s : LockThreads n) (a : LockAct n) : Decidable (SubscriptionsApart s a) := by
  cases a with
  | start t task => exact isTrue trivial
  | advance t => exact inferInstanceAs (Decidable (_ ∧ _))

/-! ## The invariant -/

theorem mem_heldClients {held : List Lock} {c : ConnId} (h : .client c ∈ held) :
    c ∈ heldClients held := List.mem_filterMap.mpr ⟨_, h, rfl⟩

/-- The threads follow the discipline, and no worker at `pubsub_lock` is in the way of the
publication under way. -/
structure LocksSound (s : LockThreads n) : Prop where
  follows : ∀ t, LocksFrom (s t).held (s t).todo []
  nodup : ∀ t, (s t).held.Nodup
  apart : ∀ u t c, .pubsub ∈ (s u).held → c ∈ walkTargets (s u).todo → ¬ AtPubsub s t c

theorem LocksSound.idle (n : Nat) : LocksSound (.idle n) :=
  ⟨fun _ => .done [], fun _ => List.nodup_nil, fun _ _ _ h => absurd h List.not_mem_nil⟩

/-- The discipline never allows a lock that is held already. -/
theorem Lock.notMem_of_allowed (held : List Lock) (l : Lock) (h : Lock.allowed held l) :
    l ∉ held := by
  cases l with
  | clientsRead => rcases h with rfl | rfl <;> simp
  | clientsWrite => simp [show held = [] from h]
  | client c => rcases h with rfl | rfl | rfl <;> simp
  | pubsub => rcases h with rfl | ⟨c, rfl⟩ <;> simp

/-- A thread that follows the discipline never stands at `pubsub_lock` while it holds it. -/
theorem pubsub_notMem_of_head {x : Holder Lock} (hf : LocksFrom x.held x.todo [])
    (hhead : x.todo.head? = some (.acquire .pubsub)) : .pubsub ∉ x.held := by
  obtain ⟨rest, hrest⟩ := List.head?_eq_some_iff.mp hhead
  rw [hrest] at hf
  exact Lock.notMem_of_allowed _ _ hf.allowed_of_acquire

/-- Operations other than the release of `pubsub_lock` do not add clients to be locked. -/
theorem mem_walkTargets_cons {op : LockOp Lock} (hop : op ≠ .release .pubsub) {rest : LockProgram}
    {c : ConnId} (h : c ∈ walkTargets rest) : c ∈ walkTargets (op :: rest) := by
  have hwhile : (op :: rest).takeWhile (· ≠ .release .pubsub) =
      op :: rest.takeWhile (· ≠ .release .pubsub) := by
    rw [List.takeWhile_cons_of_pos (by simpa using hop)]
  rw [walkTargets, hwhile, List.filterMap_cons]
  split
  · exact h
  · exact List.mem_cons_of_mem _ h

/-- Replacing one thread: as a publisher and as a subscriber it must keep clear of the others. -/
theorem LocksSound.update {s : LockThreads n} (h : LocksSound s) {t : Fin n} {x : Holder Lock}
    (hf : LocksFrom x.held x.todo []) (hn : x.held.Nodup)
    (hwalk : ∀ c ∈ walkTargets x.todo, .pubsub ∈ x.held → ∀ u, ¬ AtPubsub s u c)
    (hstand : ∀ c, x.todo.head? = some (.acquire .pubsub) → .client c ∈ x.held →
      ∀ u, u ≠ t → .pubsub ∈ (s u).held → c ∉ walkTargets (s u).todo) :
    LocksSound (Function.update s t x) := by
  have hself : Function.update s t x t = x := Function.update_self ..
  have hother {u : Fin n} (hu : u ≠ t) : Function.update s t x u = s u :=
    Function.update_of_ne hu ..
  refine ⟨?_, ?_, ?_⟩
  · intro u
    by_cases hut : u = t
    · rwa [hut, hself]
    · rw [hother hut]
      exact h.follows u
  · intro u
    by_cases hut : u = t
    · rwa [hut, hself]
    · rw [hother hut]
      exact h.nodup u
  · intro u v c hu hc hv
    unfold AtPubsub at hv
    by_cases hvt : v = t
    · rw [hvt, hself] at hv
      by_cases hut : u = t
      · rw [hut, hself] at hu
        exact pubsub_notMem_of_head hf hv.1 hu
      · rw [hother hut] at hu hc
        exact hstand c hv.1 hv.2 u hut hu hc
    · rw [hother hvt] at hv
      by_cases hut : u = t
      · rw [hut, hself] at hu hc
        exact hwalk c hc hu v hv
      · rw [hother hut] at hu hc
        exact h.apart u v c hu hc hv

/-- Taking up a task concerns a thread without locks. -/
theorem LocksSound.start {s : LockThreads n} (h : LocksSound s) {t : Fin n}
    (htodo : (s t).todo = []) (task : LockTask) :
    LocksSound (Function.update s t ⟨(s t).held, task.program⟩) := by
  have hf := h.follows t
  rw [htodo] at hf
  rw [hf.eq_of_done]
  exact h.update task.program_follows List.nodup_nil
    (fun c _ hm => absurd hm List.not_mem_nil) fun c _ hm => absurd hm List.not_mem_nil

/-- A lock operation keeps subscriptions and publications apart if its step does. -/
theorem LocksSound.advance {s s' : LockThreads n} (h : LocksSound s) {t : Fin n}
    (hok : SubscriptionsApart s (.advance t)) (hs : advance Lock.conflict s t = some s') :
    LocksSound s' := by
  obtain ⟨op, rest, htodo, rfl⟩ := advance_cases Lock.conflict hs
  have hf := h.follows t
  rw [htodo] at hf
  obtain ⟨hstart, hcome⟩ := hok
  rw [WalkStartsClear, htodo] at hstart
  rw [SubscriptionComesClear, htodo] at hcome
  refine h.update hf.tail (hf.nodup_heldAfter Lock.notMem_of_allowed (h.nodup t)) ?_ ?_
  · intro c hc hm u hu
    by_cases hop : op = .acquire .pubsub
    · -- The walk starts here: the step has kept clear of the threads at `pubsub_lock`.
      exact hstart (by rw [hop]; rfl) c hc u hu
    · have hheld : .pubsub ∈ (s t).held := by
        cases op with
        | acquire l =>
          rcases List.mem_cons.mp hm with rfl | hm
          · exact absurd rfl hop
          · exact hm
        | release l => exact List.mem_of_mem_erase hm
      have hrel : op ≠ .release .pubsub := by
        rintro rfl
        exact (h.nodup t).not_mem_erase hm
      refine h.apart t u c hheld ?_ hu
      rw [htodo]
      exact mem_walkTargets_cons hrel hc
  · intro c hhead hm u hut hu
    have hnext : (s t).heldNext = op.heldAfter (s t).held := by rw [Holder.heldNext, htodo]
    rw [hnext] at hcome
    exact hcome hhead c (mem_heldClients hm) u hut hu

/-- Every step keeps the invariant. -/
theorem LocksSound.step {roles : Fin n → ThreadRole} {s s' : LockThreads n} {a : LockAct n}
    (h : LocksSound s) (hok : SubscriptionsApart s a) (hs : lockStep roles s a = some s') :
    LocksSound s' := by
  cases a with
  | start t task =>
    simp only [lockStep] at hs
    split at hs
    · next hidle =>
      obtain rfl := Option.some.inj hs
      exact h.start hidle.1 task
    · cases hs
  | advance t => exact h.advance hok hs

/-! ## No cycle -/

section Cycle

variable {s : LockThreads n}

/-- A thread on a cycle waits for a lock that is allowed with what it holds, and the next
thread holds a lock in its way. -/
theorem LocksSound.next_of_cycle (h : LocksSound s) {t : Fin n}
    (ht : Relation.TransGen (WaitsFor Lock.conflict s) t t) :
    ∃ l, (s t).todo.head? = some (.acquire l) ∧ Lock.allowed (s t).held l ∧
      ∃ u, Relation.TransGen (WaitsFor Lock.conflict s) u u ∧
        ∃ l' ∈ (s u).held, Lock.conflict l l' := by
  obtain ⟨u, ⟨l, rest, htodo, hconf⟩, hu⟩ := exists_next_of_cycle ht
  have hf := h.follows t
  rw [htodo] at hf
  exact ⟨l, by rw [htodo]; rfl, hf.allowed_of_acquire, u, hu, hconf⟩

/-- A writer of the registry waits for nothing. -/
theorem LocksSound.writer_not_cycle (h : LocksSound s) {t : Fin n}
    (hheld : .clientsWrite ∈ (s t).held) :
    ¬ Relation.TransGen (WaitsFor Lock.conflict s) t t := by
  intro ht
  obtain ⟨l, -, hallowed, -⟩ := h.next_of_cycle ht
  cases l with
  | clientsRead => rcases hallowed with he | he <;> simp [he] at hheld
  | clientsWrite => simp [show (s t).held = [] from hallowed] at hheld
  | client c => rcases hallowed with he | he | he <;> simp [he] at hheld
  | pubsub => rcases hallowed with he | ⟨c, he⟩ <;> simp [he] at hheld

/-- A client's mutex is only held at an acquisition when it is that of `pubsub_lock`. -/
theorem LocksSound.at_pubsub_of_cycle (h : LocksSound s) {t : Fin n} {c : ConnId}
    (hheld : .client c ∈ (s t).held)
    (ht : Relation.TransGen (WaitsFor Lock.conflict s) t t) : AtPubsub s t c := by
  obtain ⟨l, hhead, hallowed, -⟩ := h.next_of_cycle ht
  cases l with
  | clientsRead => rcases hallowed with he | he <;> simp [he] at hheld
  | clientsWrite => simp [show (s t).held = [] from hallowed] at hheld
  | client d => rcases hallowed with he | he | he <;> simp [he] at hheld
  | pubsub => exact ⟨hhead, hheld⟩

/-- The thread that holds `pubsub_lock` is on no cycle: the client it waits for would have to
be held by a thread at `pubsub_lock`. -/
theorem LocksSound.pubsub_not_cycle (h : LocksSound s) {t : Fin n} (hheld : .pubsub ∈ (s t).held) :
    ¬ Relation.TransGen (WaitsFor Lock.conflict s) t t := by
  intro ht
  obtain ⟨l, hhead, hallowed, u, hu, l', hl', hconf⟩ := h.next_of_cycle ht
  cases l with
  | clientsRead =>
    obtain rfl : l' = .clientsWrite := hconf
    exact h.writer_not_cycle hl' hu
  | clientsWrite => simp [show (s t).held = [] from hallowed] at hheld
  | client c =>
    obtain rfl : l' = .client c := hconf
    obtain ⟨rest, hrest⟩ := List.head?_eq_some_iff.mp hhead
    refine h.apart t u c hheld ?_ (h.at_pubsub_of_cycle hl' hu)
    rw [hrest]
    simp [walkTargets]
  | pubsub => exact Lock.notMem_of_allowed _ _ hallowed hheld

/-- Under the invariant no threads wait for each other in a cycle. -/
theorem LocksSound.not_deadlocked (h : LocksSound s) : ¬ Deadlocked Lock.conflict s := by
  rintro ⟨t, ht⟩
  -- One step further on the cycle the thread holds a lock that another one waits for.
  obtain ⟨-, -, -, u, hu, l, hl, -⟩ := h.next_of_cycle ht
  obtain ⟨m, -, hallowed, v, hv, m', hm', hconf⟩ := h.next_of_cycle hu
  cases m with
  | clientsRead =>
    obtain rfl : m' = .clientsWrite := hconf
    exact h.writer_not_cycle hm' hv
  | clientsWrite => simp [show (s u).held = [] from hallowed] at hl
  | client c =>
    obtain rfl : m' = .client c := hconf
    obtain ⟨hhead, -⟩ := h.at_pubsub_of_cycle hm' hv
    obtain ⟨k, hk, -, w, hw, k', hk', hconf'⟩ := h.next_of_cycle hv
    obtain rfl : k = .pubsub := by simpa [hhead] using hk.symm
    obtain rfl : k' = .pubsub := hconf'
    exact h.pubsub_not_cycle hk' hw
  | pubsub =>
    obtain rfl : m' = .pubsub := hconf
    exact h.pubsub_not_cycle hm' hv

end Cycle

/-- In every run of any number of threads in which subscriptions and publications keep apart,
no reached state contains threads that wait for each other in a cycle. -/
theorem not_deadlocked_of_apart (n : Nat) (roles : Fin n → ThreadRole) (s : LockThreads n)
    (h : Reaches (lockStep roles) SubscriptionsApart (.idle n) s) :
    ¬ Deadlocked Lock.conflict s := by
  have hs : LocksSound s :=
    h.invariant (LocksSound.idle n) fun _ _ _ hi hok hstep => hi.step hok hstep
  exact hs.not_deadlocked

/-- Two workers. -/
def twoWorkers : Fin 2 → ThreadRole := fun _ => .worker

/-- The first worker executes SUBSCRIBE, and then the second one a PUBLISH to its client. -/
def apartActs : List (LockAct 2) :=
  [.start 0 (.vault 0 (.data [.subscription] none)), .advance 0, .advance 0, .advance 0, .advance 0,
    .advance 0, .advance 0, .start 1 (.vault 1 (.data [.publish [some 0] (some 1)] none)),
    .advance 1, .advance 1, .advance 1, .advance 1, .advance 1]

/-- The second worker starts its PUBLISH while the first one stands before `pubsub_lock`. -/
def crossingActs : List (LockAct 2) :=
  [.start 0 (.vault 0 (.data [.subscription] none)), .advance 0, .advance 0, .advance 0,
    .start 1 (.vault 1 (.data [.publish [some 0] (some 1)] none)),
    .advance 1, .advance 1, .advance 1, .advance 1, .advance 1, .advance 1]

theorem not_deadlocked_apartActs :
    ∃ s, Reaches (lockStep twoWorkers) SubscriptionsApart (.idle 2) s ∧
      (s 1).held = [.pubsub] ∧ ¬ Deadlocked Lock.conflict s := by
  have hrun : (run (guarded (lockStep twoWorkers) SubscriptionsApart) (.idle 2) apartActs).map
      (fun s => (s 1).held) = some [.pubsub] := by decide
  obtain ⟨s, hs, hheld⟩ := Option.map_eq_some_iff.mp hrun
  exact ⟨s, reaches_of_run hs, hheld, not_deadlocked_of_apart 2 twoWorkers s (reaches_of_run hs)⟩

/-- A SUBSCRIBE and a PUBLISH wait for each other. -/
theorem deadlocked_crossingActs :
    ∃ s, Reaches (lockStep twoWorkers) (fun _ _ => True) (.idle 2) s ∧
      Deadlocked Lock.conflict s := by
  have hrun : (run (guarded (lockStep twoWorkers) fun _ _ => True) (.idle 2) crossingActs).map
      (fun s => ((s 0).held, (s 0).todo.head?, (s 1).held, (s 1).todo.head?)) =
        some ([.client 0], some (.acquire .pubsub), [.clientsRead, .pubsub],
          some (.acquire (.client 0))) := by decide
  obtain ⟨s, hs, he⟩ := Option.map_eq_some_iff.mp hrun
  simp only [Prod.mk.injEq] at he
  obtain ⟨held0, head0, held1, head1⟩ := he
  obtain ⟨rest0, hrest0⟩ := List.head?_eq_some_iff.mp head0
  obtain ⟨rest1, hrest1⟩ := List.head?_eq_some_iff.mp head1
  have h01 : WaitsFor Lock.conflict s 0 1 := ⟨_, _, hrest0, .pubsub, by simp [held1], rfl⟩
  have h10 : WaitsFor Lock.conflict s 1 0 := ⟨_, _, hrest1, .client 0, by simp [held0], rfl⟩
  exact ⟨s, reaches_of_run hs, 0, (Relation.TransGen.single h01).tail h10⟩

end AdMQ
