import AdMQ.Broker.Threads.Ownership

/-!
# One task for one connection

An event and the task it becomes carry a bare descriptor, so a worker works for the
connection that the event was raised for only if the number still means the same
when it looks the client up. Suppose `accept` never returns a number that an event
in `events`, a queued task or a worker still carries. Then every such number means
its connection or nothing, and since an event disarms its descriptor, a connection
is at any time either armed, or reported or queued once, or worked on by one thread.
-/

namespace AdMQ

open Core

/-- The task that a thread works on. -/
def Pc.ref : Pc → Option Ref
  | .task r | .locked r _ | .lines r _ | .relock r _ | .setName r _ | .writeName r _ _ | .rearm r =>
    some r
  | .subscribe r .. | .unsubscribe r .. | .publish r .. | .publishing r .. => r
  | _ => none

/-- What the workers will take from the queue: the tasks in it, and behind them the events that
the accept loop has yet to put into it. -/
def Sys.queued (s : Sys) : List Ref := s.tasks ++ s.events

/-- The task is queued, or will be, or is worked on. -/
def Sys.Refers (s : Sys) (r : Ref) : Prop := r ∈ s.queued ∨ ∃ t, (s.pc t).ref = some r

/-- An event of the descriptor can be raised, or the accept loop is about to allow it. -/
def Sys.Ready (s : Sys) (n : Int) : Prop :=
  s.epoll n = some true ∨ s.pc .main = .added n ∨ ∃ c, s.pc .main = .accepted c n

/-- The invariant of the broker. -/
structure Tokens (s : Sys) : Prop where
  /-- Only open descriptors are in the epoll set. -/
  registered : ∀ n b, s.epoll n = some b → ∃ c, s.fdTable n = some c
  /-- Tasks belong to past connections. -/
  past : ∀ r, s.Refers r → r.conn < s.nextConn
  /-- The descriptor of a task means its connection, or nothing. -/
  current : ∀ r, s.Refers r → ∀ n c, s.fdTable n = some c → (n = r.fd ↔ c = r.conn)
  /-- A connection that is armed has no task. -/
  ready : ∀ n c, s.Ready n → s.fdTable n = some c → ∀ r, s.Refers r → r.conn ≠ c
  /-- A connection is queued once. -/
  queue : (s.queued.map Ref.conn).Nodup
  /-- A connection that is queued is not worked on. -/
  apart : ∀ r ∈ s.queued, ∀ t r', (s.pc t).ref = some r' → r'.conn ≠ r.conn
  /-- A connection is worked on by one thread. -/
  single : ∀ t u r r', (s.pc t).ref = some r → (s.pc u).ref = some r' → r.conn = r'.conn → t = u
  /-- A thread that holds a client works on a task of this client. -/
  held : ∀ t c, (s.pc t).holds = some c → ∃ r, (s.pc t).ref = some r ∧ r.conn = c
  /-- Only the accept loop adds descriptors to the epoll set. -/
  adder : ∀ t n, s.pc t = .added n → t = .main

/-- A worker finds the connection of its task under the descriptor of the task. -/
theorem Tokens.conn_of_byFd {s : Sys} (h : Tokens s) (ho : Owned s) {r : Ref} (hr : s.Refers r)
    {c : ConnId} (hget : s.byFd r.fd = some c) : c = r.conn :=
  (h.current r hr r.fd c (ho.fdTable_of_byFd hget)).mp rfl

/-- The client that a worker holds has the descriptor of the task. -/
theorem Tokens.fd_of_holds {s : Sys} (h : Tokens s) (ho : OwnedSys s) {t : Thread} {r : Ref}
    {c : ConnId} (hr : (s.pc t).ref = some r) (hc : (s.pc t).holds = some c) :
    (s.client c).fd = r.fd := by
  obtain ⟨r', hr', hconn⟩ := h.held t c hc
  obtain rfl := Option.some.inj (hr.symm.trans hr')
  have howner := ho.shared.owner c (ho.open_of_holds hc)
  exact (h.current r (Or.inr ⟨t, hr⟩) _ c howner).mpr hconn.symm

/-! ## Steps that hand out no task and arm nothing -/

/-- A state in which descriptors may have been closed, and nothing else happened to them. -/
structure Shrinks (s s' : Sys) : Prop where
  fdTable : ∀ n c, s'.fdTable n = some c → s.fdTable n = some c
  epoll : ∀ n b, s'.epoll n = some b → s.epoll n = some b ∧ s'.fdTable n = s.fdTable n
  queued : s'.queued = s.queued
  nextConn : s'.nextConn = s.nextConn
  pc : s'.pc = s.pc

theorem Shrinks.refl (s : Sys) : Shrinks s s :=
  ⟨fun _ _ h => h, fun _ _ h => ⟨h, rfl⟩, rfl, rfl, rfl⟩

theorem Shrinks.trans {s s' s'' : Sys} (h : Shrinks s s') (h' : Shrinks s' s'') :
    Shrinks s s'' where
  fdTable n c hn := h.fdTable n c (h'.fdTable n c hn)
  epoll n b hn := by
    obtain ⟨hn', hfd'⟩ := h'.epoll n b hn
    obtain ⟨hn'', hfd⟩ := h.epoll n b hn'
    exact ⟨hn'', hfd'.trans hfd⟩
  queued := h'.queued.trans h.queued
  nextConn := h'.nextConn.trans h.nextConn
  pc := h'.pc.trans h.pc

/-- The effects that hand out no task and arm nothing. -/
def Effect.keepsTokens : Effect → Bool
  | .accept .. | .epollAdd .. | .epollMod .. | .report .. | .takeTask => false
  | _ => true

theorem shrinks_closeFd (s : Sys) (fd : Int) : Shrinks s (s.closeFd fd) := by
  refine ⟨fun n c hn => (fdTable_of_closeFd hn).1, ?_, rfl, rfl, rfl⟩
  intro n b hn
  change Function.update s.epoll fd none n = some b at hn
  by_cases hfd : n = fd
  · rw [hfd, Function.update_self] at hn
    cases hn
  · rw [Function.update_of_ne hfd] at hn
    exact ⟨hn, fdTable_closeFd_of_ne s hfd⟩

theorem shrinks_tearDown (s : Sys) (c : ConnId) : Shrinks s (s.tearDown c) := by
  refine ⟨fun n d hn => fdTable_of_tearDown hn, ?_, rfl, rfl, rfl⟩
  intro n b hn
  by_cases hfd : n = (s.client c).fd
  · simp only [Sys.tearDown] at hn ⊢
    split at hn
    · rw [hfd, Function.update_self] at hn
      cases hn
    next hpos =>
      rw [if_neg hpos]
      exact ⟨hn, rfl⟩
  · refine ⟨?_, fdTable_tearDown_of_ne s hfd⟩
    simp only [Sys.tearDown] at hn
    split at hn
    · rwa [Function.update_of_ne hfd] at hn
    · exact hn

/-- Between `events` and the queue no task is lost and none changes its place. -/
theorem Sys.queued_queueWrite (s : Sys) : (s.apply .queueWrite).queued = s.queued := by
  change s.tasks ++ s.events.take 1 ++ s.events.tail = s.tasks ++ s.events
  rw [List.append_assoc, ← List.drop_one, List.take_append_drop]

theorem shrinks_apply (s : Sys) {e : Effect} (h : e.keepsTokens = true) :
    Shrinks s (s.apply e) := by
  cases e with
  | accept fd lobby => cases h
  | epollAdd fd => cases h
  | epollMod fd => cases h
  | report fds => cases h
  | takeTask => cases h
  | queueWrite => exact ⟨fun _ _ h => h, fun _ _ h => ⟨h, rfl⟩, s.queued_queueWrite, rfl, rfl⟩
  | tearDown c => exact shrinks_tearDown s c
  | closeLobby fd => exact shrinks_closeFd s fd
  | _ => exact ⟨fun _ _ h => h, fun _ _ h => ⟨h, rfl⟩, rfl, rfl, rfl⟩

theorem shrinks_applyAll (s : Sys) {effects : List Effect}
    (h : ∀ e ∈ effects, e.keepsTokens = true) : Shrinks s (s.applyAll effects) :=
  Sys.applyAll_induction (P := Shrinks s)
    (fun s' e he hs => hs.trans (shrinks_apply s' (h e he))) (.refl s)

variable {s : Sys} {t : Thread}

/-- How a thread may move on when it takes no new task and accepts no connection. -/
structure Continues (s : Sys) (t : Thread) (next : Pc) : Prop where
  ref : ∀ r, next.ref = some r → (s.pc t).ref = some r
  held : ∀ c, next.holds = some c → ∃ r, next.ref = some r ∧ r.conn = c
  added : ∀ n, next = .added n → t = .main ∧ ∃ c, s.pc t = .accepted c n
  accepted : ∀ c n, next ≠ .accepted c n

/-- The tasks of the threads after such a move. -/
theorem Continues.ref_of_goto {s' : Sys} {next : Pc} (h : Continues s t next) (hpc : s'.pc = s.pc)
    {u : Thread} {r : Ref} : ((s'.goto t next).pc u).ref = some r → (s.pc u).ref = some r :=
  Sys.forall_pc_goto (P := fun u q => q.ref = some r → (s.pc u).ref = some r) hpc (h.ref r)
    (fun _ _ hu => hu) u

theorem Continues.refers_of_goto {s' : Sys} {next : Pc} (h : Continues s t next)
    (hpc : s'.pc = s.pc) (hqueued : s'.queued = s.queued) {r : Ref}
    (hr : (s'.goto t next).Refers r) : s.Refers r := by
  rcases hr with hr | ⟨u, hu⟩
  · exact Or.inl (hqueued ▸ hr)
  · exact Or.inr ⟨u, h.ref_of_goto hpc hu⟩

/-- What the points of the threads say about themselves, after one of them moved. -/
theorem Tokens.held_goto (h : Tokens s) {s' : Sys} (hpc : s'.pc = s.pc) {next : Pc}
    (hnext : ∀ c, next.holds = some c → ∃ r, next.ref = some r ∧ r.conn = c) (u : Thread)
    (c : ConnId) (hu : ((s'.goto t next).pc u).holds = some c) :
    ∃ r, ((s'.goto t next).pc u).ref = some r ∧ r.conn = c :=
  Sys.forall_pc_goto (P := fun _ q => ∀ c, q.holds = some c → ∃ r, q.ref = some r ∧ r.conn = c) hpc
    hnext (fun u _ => h.held u) u c hu

theorem Tokens.adder_goto (h : Tokens s) {s' : Sys} (hpc : s'.pc = s.pc) {next : Pc}
    (hnext : ∀ n, next = .added n → t = .main) (u : Thread) (n : Int)
    (hu : (s'.goto t next).pc u = .added n) : u = .main :=
  Sys.forall_pc_goto (P := fun u q => ∀ n, q = .added n → u = .main) hpc hnext
    (fun u _ => h.adder u) u n hu

/-- What the accept loop is about to allow, after a thread moved. -/
theorem Sys.ready_of_goto {s' : Sys} {next : Pc} {n : Int} (h : (s'.goto t next).Ready n)
    (hpc : s'.pc = s.pc) (hadded : next = .added n → s.Ready n)
    (haccepted : ∀ c, next = .accepted c n → s.Ready n)
    (hepoll : s'.epoll n = some true → s.Ready n) : s.Ready n := by
  by_cases hmain : .main = t
  · rw [Sys.Ready, hmain, Sys.pc_goto_self] at h
    rcases h with h | h | ⟨c, h⟩
    · exact hepoll h
    · exact hadded h
    · exact haccepted c h
  · rw [Sys.Ready, Sys.pc_goto_of_ne _ hmain, hpc] at h
    rcases h with h | h
    · exact hepoll h
    · exact Or.inr h

/-- A step of a thread that goes on with its task or drops it. -/
theorem Tokens.quiet (h : Tokens s) {s' : Sys} (hs : Shrinks s s') {next : Pc}
    (hnext : Continues s t next) : Tokens (s'.goto t next) where
  registered n b hn := by
    obtain ⟨hn', hfd⟩ := hs.epoll n b hn
    obtain ⟨c, hc⟩ := h.registered n b hn'
    exact ⟨c, hfd.trans hc⟩
  past r hr := by
    change r.conn < s'.nextConn
    rw [hs.nextConn]
    exact h.past r (hnext.refers_of_goto hs.pc hs.queued hr)
  current r hr n c hn :=
    h.current r (hnext.refers_of_goto hs.pc hs.queued hr) n c (hs.fdTable n c hn)
  ready n c hn hc r hr := by
    have hold : s.Ready n := by
      refine Sys.ready_of_goto hn hs.pc ?_ (fun d he => absurd he (hnext.accepted d n))
        fun he => Or.inl (hs.epoll n true he).1
      intro he
      obtain ⟨rfl, hadded⟩ := hnext.added n he
      exact Or.inr (Or.inr hadded)
    exact h.ready n c hold (hs.fdTable n c hc) r (hnext.refers_of_goto hs.pc hs.queued hr)
  queue := by
    change (s'.queued.map Ref.conn).Nodup
    rw [hs.queued]
    exact h.queue
  apart r hr u r' hu := h.apart r (hs.queued ▸ hr) u r' (hnext.ref_of_goto hs.pc hu)
  single u v r r' hu hv he :=
    h.single u v r r' (hnext.ref_of_goto hs.pc hu) (hnext.ref_of_goto hs.pc hv) he
  held := h.held_goto hs.pc hnext.held
  adder := h.adder_goto hs.pc fun n he => (hnext.added n he).1

/-- A thread becomes idle. -/
theorem continues_idle (s : Sys) (t : Thread) : Continues s t .idle := ⟨nofun, nofun, nofun, nofun⟩

/-! ## Steps that hand out tasks or arm -/

/-- The accept condition: nobody carries the number that `accept` returns. -/
def Sys.Unreferenced (s : Sys) (fd : Int) : Prop :=
  (∀ r ∈ s.queued, r.fd ≠ fd) ∧ ∀ t r, (s.pc t).ref = some r → r.fd ≠ fd

theorem Sys.Unreferenced.ne {fd : Int} (h : s.Unreferenced fd) {r : Ref} (hr : s.Refers r) :
    r.fd ≠ fd := by
  rcases hr with hr | ⟨t, ht⟩
  · exact h.1 r hr
  · exact h.2 t r ht

theorem Tokens.accept (h : Tokens s) {fd : Int} (hun : s.Unreferenced fd) (lobby : Bool) {next : Pc}
    (href : next.ref = none) (hholds : next.holds = none) (hadded : ∀ n, next ≠ .added n)
    (haccepted : ∀ c n, next = .accepted c n → n = fd) :
    Tokens ((s.apply (.accept fd lobby)).goto .main next) := by
  have hpc : (s.apply (.accept fd lobby)).pc = s.pc := rfl
  have hthread {u : Thread} {r : Ref} :
      (((s.apply (.accept fd lobby)).goto .main next).pc u).ref = some r →
        (s.pc u).ref = some r := by
    refine Sys.forall_pc_goto (P := fun u q => q.ref = some r → (s.pc u).ref = some r) hpc ?_
      (fun _ _ hu => hu) u
    intro hr
    rw [href] at hr
    cases hr
  have hrefers {r : Ref} (hr : ((s.apply (.accept fd lobby)).goto .main next).Refers r) :
      s.Refers r := by
    rcases hr with hr | ⟨u, hu⟩
    · exact Or.inl hr
    · exact Or.inr ⟨u, hthread hu⟩
  have howner {n : Int} {c : ConnId}
      (hn : Function.update s.fdTable fd (some s.nextConn) n = some c) :
      n = fd ∧ c = s.nextConn ∨ n ≠ fd ∧ s.fdTable n = some c := by
    by_cases hfd : n = fd
    · rw [hfd, Function.update_self] at hn
      exact Or.inl ⟨hfd, (Option.some.inj hn).symm⟩
    · rw [Function.update_of_ne hfd] at hn
      exact Or.inr ⟨hfd, hn⟩
  refine ⟨?_, ?_, ?_, ?_, h.queue,
    fun r hr u r' hu => h.apart r hr u r' (hthread hu),
    fun u v r r' hu hv he => h.single u v r r' (hthread hu) (hthread hv) he,
    h.held_goto hpc ?_, h.adder_goto hpc fun n he => absurd he (hadded n)⟩
  · intro n b hn
    change ∃ c, Function.update s.fdTable fd (some s.nextConn) n = some c
    change Function.update s.epoll fd (if lobby then some false else none) n = some b at hn
    by_cases hfd : n = fd
    · rw [hfd, Function.update_self]
      exact ⟨_, rfl⟩
    · rw [Function.update_of_ne hfd] at hn ⊢
      exact h.registered n b hn
  · intro r hr
    exact Nat.lt_succ_of_lt (h.past r (hrefers hr))
  · -- The new connection is no task's, and neither is its descriptor.
    intro r hr n c hn
    rcases howner hn with ⟨rfl, rfl⟩ | ⟨hne, hn⟩
    · have hfd := hun.ne (hrefers hr)
      have hconn := (h.past r (hrefers hr)).ne
      exact ⟨fun he => absurd he.symm hfd, fun he => absurd he.symm hconn⟩
    · exact h.current r (hrefers hr) n c hn
  · intro n c hn hc r hr
    rcases howner hc with ⟨rfl, rfl⟩ | ⟨hne, hc⟩
    · exact (h.past r (hrefers hr)).ne
    · refine h.ready n c (Sys.ready_of_goto hn hpc (fun he => absurd he (hadded n))
        (fun d he => absurd (haccepted d n he) hne) ?_) hc r (hrefers hr)
      intro he
      change Function.update s.epoll fd (if lobby then some false else none) n = some true at he
      rw [Function.update_of_ne hne] at he
      exact Or.inl he
  · intro c hc
    rw [hholds] at hc
    cases hc

/-- The accept loop arms the descriptor of a new connection. -/
theorem Tokens.arm (h : Tokens s) {fd : Int} (hadded : s.pc .main = .added fd) :
    Tokens ((s.apply (.epollAdd fd)).goto .main .idle) := by
  have hpc : (s.apply (.epollAdd fd)).pc = s.pc := rfl
  have hidle := continues_idle s .main
  refine ⟨?_, fun r hr => h.past r (hidle.refers_of_goto hpc rfl hr),
    fun r hr => h.current r (hidle.refers_of_goto hpc rfl hr), ?_, h.queue,
    fun r hr u r' hu => h.apart r hr u r' (hidle.ref_of_goto hpc hu),
    fun u v r r' hu hv he =>
      h.single u v r r' (hidle.ref_of_goto hpc hu) (hidle.ref_of_goto hpc hv) he,
    h.held_goto hpc nofun, h.adder_goto hpc nofun⟩
  · intro n b hn
    change Function.update s.epoll fd ((s.fdTable fd).map fun _ => true) n = some b at hn
    by_cases hfd : n = fd
    · rw [hfd, Function.update_self] at hn
      obtain ⟨c, hc, -⟩ := Option.map_eq_some_iff.mp hn
      exact ⟨c, hfd ▸ hc⟩
    · rw [Function.update_of_ne hfd] at hn
      exact h.registered n b hn
  · intro n c hn hc r hr
    refine h.ready n c (Sys.ready_of_goto hn hpc nofun nofun ?_) hc r
      (hidle.refers_of_goto hpc rfl hr)
    intro he
    by_cases hfd : n = fd
    · exact Or.inr (Or.inl (hfd ▸ hadded))
    · change Function.update s.epoll fd ((s.fdTable fd).map fun _ => true) n = some true at he
      rw [Function.update_of_ne hfd] at he
      exact Or.inl he

/-- What `epoll_wait` reports: the armed descriptors, each with the connection it belongs to. -/
theorem Sys.mem_events_report {fds : List Int} {r : Ref} :
    r ∈ (s.apply (.report fds)).events ↔ r.fd ∈ fds ∧ s.fdTable r.fd = some r.conn := by
  change r ∈ fds.filterMap (fun fd => (s.fdTable fd).map (Ref.mk fd)) ↔ _
  simp only [List.mem_filterMap, Option.map_eq_some_iff]
  constructor
  · rintro ⟨fd, hfd, c, hc, rfl⟩
    exact ⟨hfd, hc⟩
  · rintro ⟨hfd, hc⟩
    exact ⟨r.fd, hfd, r.conn, hc, rfl⟩

/-- The connections of a batch of events are different ones. -/
theorem Owned.nodup_events_report (ho : Owned s) {fds : List Int} (hnodup : fds.Nodup) :
    ((s.apply (.report fds)).events.map Ref.conn).Nodup := by
  have hmap : (s.apply (.report fds)).events.map Ref.conn = fds.filterMap s.fdTable := by
    change (fds.filterMap fun fd => (s.fdTable fd).map (Ref.mk fd)).map Ref.conn = _
    rw [List.map_filterMap]
    refine List.filterMap_congr fun fd _ => ?_
    rw [Option.map_map]
    exact Option.map_id'
  rw [hmap]
  exact hnodup.filterMap fun m n c hm hn => ho.single m n c hm hn

/-- `epoll_wait` reports a batch of events. -/
theorem Tokens.events (h : Tokens s) (ho : Owned s) {fds : List Int} (hnone : s.events = [])
    (hnodup : fds.Nodup) (harmed : ∀ fd ∈ fds, s.epoll fd = some true) :
    Tokens ((s.apply (.report fds)).goto .main .idle) := by
  have hpc : (s.apply (.report fds)).pc = s.pc := rfl
  have hidle := continues_idle s .main
  have htasks : s.queued = s.tasks := by rw [Sys.queued, hnone, List.append_nil]
  have hqueued {r : Ref} (hr : r ∈ ((s.apply (.report fds)).goto .main .idle).queued) :
      r ∈ s.queued ∨ r.fd ∈ fds ∧ s.fdTable r.fd = some r.conn := by
    rcases List.mem_append.mp hr with hr | hr
    · exact Or.inl (htasks ▸ hr)
    · exact Or.inr (Sys.mem_events_report.mp hr)
  have hrefers {r : Ref} (hr : ((s.apply (.report fds)).goto .main .idle).Refers r) :
      s.Refers r ∨ r.fd ∈ fds ∧ s.fdTable r.fd = some r.conn := by
    rcases hr with hr | ⟨u, hu⟩
    · exact (hqueued hr).imp_left Or.inl
    · exact Or.inl (Or.inr ⟨u, hidle.ref_of_goto hpc hu⟩)
  -- No connection of the batch has a task yet.
  have hfresh {r : Ref} (hr : r.fd ∈ fds ∧ s.fdTable r.fd = some r.conn) (q : Ref)
      (hq : s.Refers q) : q.conn ≠ r.conn :=
    h.ready r.fd r.conn (Or.inl (harmed _ hr.1)) hr.2 q hq
  have hepoll {n : Int} {b : Bool} (hn : (s.apply (.report fds)).epoll n = some b) :
      n ∈ fds ∧ b = false ∨ n ∉ fds ∧ s.epoll n = some b := by
    change (if n ∈ fds then some false else s.epoll n) = some b at hn
    split at hn
    next hmem => exact Or.inl ⟨hmem, (Option.some.inj hn).symm⟩
    next hmem => exact Or.inr ⟨hmem, hn⟩
  refine ⟨?_, ?_, ?_, ?_, ?_,
    ?_, fun u v r r' hu hv he => h.single u v r r' (hidle.ref_of_goto hpc hu)
      (hidle.ref_of_goto hpc hv) he, h.held_goto hpc nofun, h.adder_goto hpc nofun⟩
  · intro n b hn
    rcases hepoll hn with ⟨hmem, -⟩ | ⟨-, hold⟩
    · exact h.registered n true (harmed n hmem)
    · exact h.registered n b hold
  · intro r hr
    rcases hrefers hr with hr | hr
    · exact h.past r hr
    · exact ho.allotted r.fd r.conn hr.2
  · intro r hr n d hn
    rcases hrefers hr with hr | hr
    · exact h.current r hr n d hn
    · constructor
      · rintro rfl
        exact Option.some.inj (hn.symm.trans hr.2)
      · rintro rfl
        exact ho.single n r.fd r.conn hn hr.2
  · -- The descriptors of the batch are disarmed, and no other one belongs to their connections.
    intro n d hn hd r hr
    have hmain : s.epoll n = some true ∧ n ∉ fds := by
      rw [Sys.Ready, Sys.pc_goto_self] at hn
      rcases hn with hn | hn | ⟨d', hn⟩
      · rcases hepoll hn with ⟨-, hfalse⟩ | ⟨hmem, hold⟩
        · cases hfalse
        · exact ⟨hold, hmem⟩
      · cases hn
      · cases hn
    rcases hrefers hr with hr | hr
    · exact h.ready n d (Or.inl hmain.1) hd r hr
    · intro he
      rw [ho.single n r.fd d hd (he ▸ hr.2)] at hmain
      exact hmain.2 hr.1
  · change ((s.tasks ++ (s.apply (.report fds)).events).map Ref.conn).Nodup
    rw [List.map_append, List.nodup_append', ← htasks]
    refine ⟨h.queue, ho.nodup_events_report hnodup, ?_⟩
    intro c hc hc'
    obtain ⟨q, hq, rfl⟩ := List.mem_map.mp hc
    obtain ⟨r, hr, he⟩ := List.mem_map.mp hc'
    exact hfresh (Sys.mem_events_report.mp hr) q (Or.inl hq) he.symm
  · intro r hr u r' hu
    rcases hqueued hr with hr | hr
    · exact h.apart r hr u r' (hidle.ref_of_goto hpc hu)
    · exact hfresh hr r' (Or.inr ⟨u, hidle.ref_of_goto hpc hu⟩)

/-- A worker takes the oldest task. -/
theorem Tokens.take (h : Tokens s) {r : Ref} {rest : List Ref} (htasks : s.tasks = r :: rest) :
    Tokens ((s.apply .takeTask).goto t (.task r)) := by
  have hpc : (s.apply .takeTask).pc = s.pc := rfl
  have hqueued : s.queued = r :: (rest ++ s.events) := by
    rw [Sys.queued, htasks, List.cons_append]
  have hr : r ∈ s.queued := hqueued ▸ List.mem_cons_self
  have hrest : ((s.apply .takeTask).goto t (.task r)).queued = rest ++ s.events := by
    change s.tasks.tail ++ s.events = rest ++ s.events
    rw [htasks]
    rfl
  have hsub {q : Ref} (hq : q ∈ rest ++ s.events) : q ∈ s.queued :=
    hqueued ▸ List.mem_cons_of_mem r hq
  have hqueue : r.conn ∉ (rest ++ s.events).map Ref.conn ∧
      ((rest ++ s.events).map Ref.conn).Nodup := by
    have hqueue := h.queue
    rw [hqueued, List.map_cons] at hqueue
    exact List.nodup_cons.mp hqueue
  have hthread {u : Thread} {q : Ref} :
      (((s.apply .takeTask).goto t (.task r)).pc u).ref = some q →
        u = t ∧ r = q ∨ (s.pc u).ref = some q := by
    refine Sys.forall_pc_goto
      (P := fun u p => p.ref = some q → u = t ∧ r = q ∨ (s.pc u).ref = some q) hpc ?_
      (fun _ _ hu => Or.inr hu) u
    intro hq
    exact Or.inl ⟨rfl, Option.some.inj hq⟩
  have hrefers {q : Ref} (hq : ((s.apply .takeTask).goto t (.task r)).Refers q) : s.Refers q := by
    rcases hq with hq | ⟨u, hu⟩
    · exact Or.inl (hsub (hrest ▸ hq))
    · rcases hthread hu with ⟨-, rfl⟩ | hu
      · exact Or.inl hr
      · exact Or.inr ⟨u, hu⟩
  refine ⟨h.registered, fun q hq => h.past q (hrefers hq), fun q hq => h.current q (hrefers hq),
    ?_, hrest ▸ hqueue.2, ?_,
    ?_, h.held_goto hpc nofun, h.adder_goto hpc nofun⟩
  · intro n c hn hc q hq
    exact h.ready n c (Sys.ready_of_goto hn hpc nofun nofun Or.inl) hc q (hrefers hq)
  · intro q hq u q' hu
    rw [hrest] at hq
    rcases hthread hu with ⟨-, rfl⟩ | hu
    · intro he
      exact hqueue.1 (he ▸ List.mem_map_of_mem hq)
    · exact h.apart q (hsub hq) u q' hu
  · intro u v q q' hu hv he
    rcases hthread hu with ⟨hut, rfl⟩ | hu
    · rcases hthread hv with ⟨hvt, -⟩ | hv
      · exact hut.trans hvt.symm
      · exact absurd he.symm (h.apart r hr v q' hv)
    · rcases hthread hv with ⟨-, rfl⟩ | hv
      · exact absurd he (h.apart r hr u q hu)
      · exact h.single u v q q' hu hv he

/-- A worker arms the descriptor of its task again and is done with the task. -/
theorem Tokens.rearm (h : Tokens s) {s' : Sys} (hs : Shrinks s s') {r : Ref}
    (hr : (s.pc t).ref = some r) : Tokens ((s'.apply (.epollMod r.fd)).goto t .idle) := by
  have hpc : (s'.apply (.epollMod r.fd)).pc = s.pc := hs.pc
  have hqueued : (s'.apply (.epollMod r.fd)).queued = s.queued := hs.queued
  have hidle := continues_idle s t
  have hepoll {n : Int} {b : Bool} (hn : (s'.apply (.epollMod r.fd)).epoll n = some b) :
      ∃ b', s'.epoll n = some b' ∧ (n ≠ r.fd → b' = b) := by
    change Function.update s'.epoll r.fd ((s'.epoll r.fd).map fun _ => true) n = some b at hn
    by_cases hfd : n = r.fd
    · rw [hfd, Function.update_self] at hn
      obtain ⟨b', hb', -⟩ := Option.map_eq_some_iff.mp hn
      exact ⟨b', hfd ▸ hb', fun hne => absurd hfd hne⟩
    · rw [Function.update_of_ne hfd] at hn
      exact ⟨b, hn, fun _ => rfl⟩
  refine ⟨?_, ?_, ?_, ?_, ?_, ?_, ?_, h.held_goto hpc nofun, h.adder_goto hpc nofun⟩
  · intro n b hn
    obtain ⟨b', hb', -⟩ := hepoll hn
    obtain ⟨hold, hfd⟩ := hs.epoll n b' hb'
    obtain ⟨c, hc⟩ := h.registered n b' hold
    exact ⟨c, hfd.trans hc⟩
  · intro q hq
    change q.conn < s'.nextConn
    rw [hs.nextConn]
    exact h.past q (hidle.refers_of_goto hpc hqueued hq)
  · intro q hq n c hn
    exact h.current q (hidle.refers_of_goto hpc hqueued hq) n c (hs.fdTable n c hn)
  · intro n c hn hc q hq
    have hc' := hs.fdTable n c hc
    by_cases hfd : n = r.fd
    · -- The connection of the task is free: the thread that worked on it just dropped it.
      rw [(h.current r (Or.inr ⟨t, hr⟩) n c hc').mp hfd]
      intro he
      rcases hq with hq | ⟨u, hu⟩
      · exact h.apart q (hqueued ▸ hq) t r hr he.symm
      · have hut := h.single u t q r (hidle.ref_of_goto hpc hu) hr he
        rw [hut, Sys.pc_goto_self] at hu
        cases hu
    · refine h.ready n c (Sys.ready_of_goto hn hpc nofun nofun ?_) hc' q
        (hidle.refers_of_goto hpc hqueued hq)
      intro he
      obtain ⟨b', hb', heq⟩ := hepoll he
      rw [heq hfd] at hb'
      exact Or.inl (hs.epoll n true hb').1
  · change (s'.queued.map Ref.conn).Nodup
    rw [hs.queued]
    exact h.queue
  · intro q hq u q' hu
    exact h.apart q (hqueued ▸ hq) u q' (hidle.ref_of_goto hpc hu)
  · intro u v q q' hu hv he
    exact h.single u v q q' (hidle.ref_of_goto hpc hu) (hidle.ref_of_goto hpc hv) he

/-! ## Steps -/

/-- `accept` returns no number that an event, a queued task or a worker still carries. -/
def Sys.NumberFresh (s : Sys) (a : Act) : Prop :=
  match a.input with
  | .acceptVault fd | .acceptLobby fd => s.Unreferenced fd
  | _ => True

theorem answers_keepsTokens {c : ConnId} {e : Effect} (h : Answers s c e) :
    e.keepsTokens = true := by
  cases h <;> rfl

/-- A thread goes on with its task, and with the client it holds. -/
theorem Tokens.continues (h : Tokens s) {p next : Pc} (hpc : s.pc t = p) (href : next.ref = p.ref)
    (hholds : ∀ c, next.holds = some c → p.holds = some c) (hadded : ∀ n, next ≠ .added n)
    (haccepted : ∀ c n, next ≠ .accepted c n) : Continues s t next := by
  subst hpc
  refine ⟨fun r hr => href ▸ hr, ?_, fun n he => absurd he (hadded n), haccepted⟩
  intro c hc
  obtain ⟨r, hr, hconn⟩ := h.held t c (hholds c hc)
  exact ⟨r, href.trans hr, hconn⟩

/-- A thread locks the client under the descriptor of its task. -/
theorem Tokens.continues_found (h : Tokens s) (ho : Owned s) {r : Ref} {c : ConnId} {next : Pc}
    (hr : (s.pc t).ref = some r) (hget : s.byFd r.fd = some c) (href : next.ref = some r)
    (hholds : next.holds = some c) (hadded : ∀ n, next ≠ .added n)
    (haccepted : ∀ c n, next ≠ .accepted c n) : Continues s t next := by
  refine ⟨?_, fun d hd => ⟨r, href, ?_⟩, fun n he => absurd he (hadded n), haccepted⟩
  · intro q hq
    rw [hr, ← href, hq]
  · rw [← h.conn_of_byFd ho (Or.inr ⟨t, hr⟩) hget]
    exact Option.some.inj (hholds.symm.trans hd)

/-- Every step keeps the tasks apart. -/
theorem Tokens.step {s' : Sys} {a : Act} (h : Tokens s) (ho : OwnedSys s)
    (hfresh : s.NumberFresh a) (hs : s.step a = some s') : Tokens s' := by
  obtain ⟨effects, next, hmove, rfl⟩ := Sys.exists_move_of_step hs
  have href {p : Pc} {r : Ref} (hpc : s.pc a.thread = p) (hr : p.ref = some r) :
      (s.pc a.thread).ref = some r := hpc ▸ hr
  have hholds {p : Pc} {c : ConnId} (hpc : s.pc a.thread = p) (hc : p.holds = some c) :
      (s.pc a.thread).holds = some c := hpc ▸ hc
  -- A step that only goes on with the task of its thread.
  have hgoes {p q : Pc} {effects : List Effect} (hpc : s.pc a.thread = p)
      (heffects : ∀ e ∈ effects, e.keepsTokens = true) (hq : q.ref = p.ref)
      (hc : ∀ c, q.holds = some c → p.holds = some c) (hadded : ∀ n, q ≠ .added n)
      (haccepted : ∀ c n, q ≠ .accepted c n) : Tokens ((s.applyAll effects).goto a.thread q) :=
    h.quiet (shrinks_applyAll s heffects) (h.continues hpc hq hc hadded haccepted)
  cases hmove with
  | acceptVault ht hin hpc hpos hfree =>
    simp only [Sys.NumberFresh, hin] at hfresh
    rw [ht]
    refine h.accept hfresh false rfl rfl nofun ?_
    intro c n he
    exact (Pc.accepted.inj he).2.symm
  | acceptLobby ht hin hpc hpos hfree =>
    simp only [Sys.NumberFresh, hin] at hfresh
    rw [ht]
    exact h.accept hfresh true rfl rfl nofun nofun
  | events ht hin hpc hnone hnodup harmed =>
    rw [ht]
    exact h.events ho.shared hnone hnodup harmed
  | add hin hpc hread hmemory =>
    have hmain : PointOwned s a.thread (.accepted _ _) := hpc ▸ ho.points a.thread
    refine h.quiet (shrinks_applyAll s (List.all_eq_true.mp rfl)) ⟨nofun, nofun, ?_, nofun⟩
    rintro n ⟨⟩
    exact ⟨hmain.1, _, hpc⟩
  | arm hpc =>
    have hmain := h.adder a.thread _ hpc
    rw [hmain] at hpc ⊢
    exact h.arm hpc
  | take ht hpc htasks => exact h.take htasks
  | lookup hpc hget hfree =>
    exact h.quiet (.refl s) (h.continues_found ho.shared (href hpc rfl) hget rfl rfl nofun nofun)
  | relock hpc hget hfree =>
    exact h.quiet (shrinks_applyAll s (List.all_eq_true.mp rfl))
      (h.continues_found ho.shared (href hpc rfl) hget rfl rfl nofun nofun)
  | wait hpc =>
    rw [h.fd_of_holds ho (href hpc rfl) (hholds hpc rfl)]
    exact h.rearm (shrinks_apply s (e := .startSsl _) rfl) (href hpc rfl)
  | drained hpc =>
    rw [h.fd_of_holds ho (href hpc rfl) (hholds hpc rfl)]
    exact h.rearm (.refl s) (href hpc rfl)
  | rearm hpc => exact h.rearm (.refl s) (href hpc rfl)
  | answered hpc hbuf heffects =>
    refine hgoes hpc ?_ rfl (fun _ hc => hc) nofun nofun
    intro e he
    rcases List.mem_cons.mp he with rfl | he
    · rfl
    · exact answers_keepsTokens (heffects e he)
  | verified hin hpc hauth => exact hgoes hpc (List.all_eq_true.mp rfl) rfl nofun nofun nofun
  | received hpc hauth =>
    exact hgoes hpc (List.all_eq_true.mp rfl) rfl (fun _ hc => hc) nofun nofun
  | stored hpc hline hcan =>
    exact hgoes hpc (List.all_eq_true.mp rfl) rfl (fun _ hc => hc) nofun nofun
  | lineSubscribe hpc hline hcan hlen =>
    exact hgoes hpc (List.all_eq_true.mp rfl) rfl (fun _ hc => hc) nofun nofun
  | lineUnsubscribe hpc hline hcan =>
    exact hgoes hpc (List.all_eq_true.mp rfl) rfl (fun _ hc => hc) nofun nofun
  | linePublish hpc hline hcan =>
    exact hgoes hpc (List.all_eq_true.mp rfl) rfl nofun nofun nofun
  | unnamed hpc hget => exact hgoes hpc nofun rfl nofun nofun nofun
  | mapName hpc hread hget =>
    exact hgoes hpc (List.all_eq_true.mp rfl) rfl nofun nofun nofun
  | copyName hpc hfree => exact hgoes hpc (List.all_eq_true.mp rfl) rfl nofun nofun nofun
  | subscribe hpc hfree =>
    exact hgoes hpc (List.all_eq_true.mp rfl) rfl (fun _ hc => hc) nofun nofun
  | unsubscribe hpc hfree =>
    exact hgoes hpc (List.all_eq_true.mp rfl) rfl (fun _ hc => hc) nofun nofun
  | publish hpc hfree => exact hgoes hpc nofun rfl nofun nofun nofun
  | skip hpc => exact hgoes hpc nofun rfl nofun nofun nofun
  | deliver hpc hget hfree =>
    exact hgoes hpc (List.all_eq_true.mp rfl) rfl nofun nofun nofun
  | published hpc => exact hgoes hpc nofun rfl nofun nofun nofun
  | _ =>
    exact h.quiet (shrinks_applyAll s (List.all_eq_true.mp rfl)) ⟨nofun, nofun, nofun, nofun⟩

theorem tokens_init (policy : Policy) (db : Database) : Tokens (.init policy db) := by
  have hrefers (r : Ref) : ¬ (Sys.init policy db).Refers r := by
    rintro (hr | ⟨t, ht⟩)
    · cases hr
    · cases ht
  exact ⟨nofun, fun r hr => absurd hr (hrefers r), nofun, nofun, List.nodup_nil, nofun, nofun,
    nofun, nofun⟩

end AdMQ
