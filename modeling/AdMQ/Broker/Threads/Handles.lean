import AdMQ.Broker.Threads.Audit
import AdMQ.Broker.Threads.Identity

/-!
# From a publication back to the client

A worker that executes a `PUBLISH` line drops the mutex of the client, and all
it keeps is the descriptor of its task. With this number it looks the client up
again, and with this number it removes the client when the lookup fails. If
`accept` returns no number that a worker keeps in this way, the worker goes on
with the client of the line or with none, and what it does meanwhile touches no
other connection.
-/

namespace AdMQ

open Core

/-- What a worker keeps of a client between the unlock and the end of its work for the line: a
descriptor, and the connection that it stands for. -/
structure Handle where
  fd : Int
  conn : ConnId
  deriving DecidableEq

/-- The handle of a thread after a step. It is taken where a line leads to a publication, and
dropped when the thread has locked a client again or is done. -/
def Handle.next (kept : Option Handle) : Pc → Pc → Option Handle
  | .lines r c, .publish _ _ _ _ => some ⟨r.fd, c⟩
  | _, .lines _ _ => none
  | _, .idle => none
  | _, _ => kept

/-- The handles of all threads after a step. -/
def Handle.note (w : Thread → Option Handle) (s : Sys) (a : Act) (s' : Sys) :
    Thread → Option Handle :=
  Function.update w a.thread (Handle.next (w a.thread) (s.pc a.thread) (s'.pc a.thread))

/-- The broker with the handles of its threads. -/
abbrev Sys.stepHandles : Sys × (Thread → Option Handle) → Act →
    Option (Sys × (Thread → Option Handle)) :=
  noted Sys.step Handle.note

/-- The condition on a step: `accept` returns no number that a worker keeps, and accepted common
names are no descriptor keys. -/
def Sys.HandlesFresh (p : Sys × (Thread → Option Handle)) (a : Act) : Prop :=
  (∀ fd ∈ a.input.acceptedFd?, ∀ t, ∀ h ∈ p.2 t, h.fd ≠ fd) ∧ a.NamePlain

/-- A step leaves a connection alone: its client, its descriptor, and what the registry and the
subscriber lists have under that descriptor. -/
structure Sys.Untouched (s s' : Sys) (c : ConnId) : Prop where
  client : s'.client c = s.client c
  fdTable : ∀ n, s.fdTable n = some c → s'.fdTable n = some c
  byFd : ∀ n, s.fdTable n = some c → s'.byFd n = s.byFd n
  subscribers : ∀ n, s.fdTable n = some c → ∀ topic,
    n ∈ s'.subscribers topic ↔ n ∈ s.subscribers topic

/-! ## The invariant -/

/-- What the handle of a thread says at a point. -/
def Pc.Handled (w : Option Handle) : Pc → Prop
  | .publish (some r) _ _ _ | .publishing (some r) _ _ _ _ | .relock r _ => ∃ c, w = some ⟨r.fd, c⟩
  | .sweep fds => ∀ h ∈ w, ∀ n ∈ fds, n = h.fd
  | .remove fd rest => ∀ h ∈ w, ∀ n ∈ fd :: rest, n = h.fd
  | .destroy c rest => ∀ h ∈ w, c = h.conn ∧ ∀ n ∈ rest, n = h.fd
  | _ => w = none

/-- What every step keeps. -/
structure Handles (s : Sys) (w : Thread → Option Handle) : Prop where
  owned : OwnedSys s
  /-- A locked client has the descriptor of the task. -/
  held : ∀ t r c, (s.pc t).ref = some r → (s.pc t).holds = some c → (s.client c).fd = r.fd
  points : ∀ t, (s.pc t).Handled (w t)
  /-- The descriptor of a handle means its connection, or nothing. -/
  current : ∀ t, ∀ h ∈ w t, ∀ c, s.fdTable h.fd = some c → c = h.conn

variable {s s' : Sys} {w : Thread → Option Handle} {t : Thread} {input : Input}
  {effects : List Effect} {next : Pc}

/-- The connection under the descriptor of a handle. -/
theorem Handles.conn_of_byFd (h : Handles s w) {handle : Handle} (hw : w t = some handle)
    {c : ConnId} (hget : s.byFd handle.fd = some c) : c = handle.conn :=
  h.current t handle hw c (h.owned.shared.fdTable_of_byFd hget)

/-- The descriptor of a task belongs to the client that its worker has locked. -/
theorem Handles.fdTable_of_holds (h : Handles s w) {r : Ref} {c : ConnId}
    (hr : (s.pc t).ref = some r) (hc : (s.pc t).holds = some c) : s.fdTable r.fd = some c := by
  rw [← h.held t r c hr hc]
  exact h.owned.shared.owner c (h.owned.open_of_holds hc)

/-! ## Effects on descriptors -/

/-- Only adding and tearing down a client changes its descriptor. -/
theorem fd_apply (s : Sys) {e : Effect} {c : ConnId}
    (hadd : ∀ fd memory, e ≠ .addClient c fd memory) (htear : e ≠ .tearDown c) :
    ((s.apply e).client c).fd = (s.client c).fd := by
  cases e with
  | addClient d fd memory =>
    rw [client_addClient_of_ne]
    rintro rfl
    exact hadd fd memory rfl
  | tearDown d =>
    refine congrArg Client.fd (client_tearDown_of_ne s ?_)
    rintro rfl
    exact htear rfl
  | mapName fd cn => rw [client_mapName]
  | unregister fd => rw [client_unregister]
  | accept fd lobby => rfl
  | closeLobby fd => rfl
  | _ => exact (sameOwners_apply s rfl).fd c

/-- Only `accept` opens a descriptor. -/
theorem fdTable_of_apply {e : Effect} {n : Int} {c : ConnId}
    (hn : (s.apply e).fdTable n = some c) :
    s.fdTable n = some c ∨ ∃ lobby, e = .accept n lobby := by
  cases e with
  | accept fd lobby =>
    by_cases hfd : n = fd
    · exact Or.inr ⟨lobby, by rw [hfd]⟩
    · exact Or.inl ((Function.update_of_ne hfd ..).symm.trans hn)
  | tearDown d => exact Or.inl (fdTable_of_tearDown hn)
  | closeLobby fd => exact Or.inl (fdTable_of_closeFd hn).1
  | _ => exact Or.inl hn

theorem fdTable_of_applyAll {n : Int} {c : ConnId}
    (hn : (s.applyAll effects).fdTable n = some c) :
    s.fdTable n = some c ∨ ∃ lobby, .accept n lobby ∈ effects := by
  refine Sys.applyAll_induction (P := fun s' => s'.fdTable n = some c →
    s.fdTable n = some c ∨ ∃ lobby, .accept n lobby ∈ effects) ?_ Or.inl hn
  intro s' e he ih hn'
  rcases fdTable_of_apply hn' with hn' | ⟨lobby, rfl⟩
  · exact ih hn'
  · exact Or.inr ⟨lobby, he⟩

theorem acceptedFd_of_move (hmove : Move s t input effects next) {n : Int} {lobby : Bool}
    (hmem : .accept n lobby ∈ effects) : input.acceptedFd? = some n := by
  cases hmove with
  | acceptVault ht hin | acceptLobby ht hin =>
    cases List.mem_singleton.mp hmem
    rw [hin]
    rfl
  | answered hpc hbuf heffects =>
    rcases List.mem_cons.mp hmem with hmem | hmem
    · cases hmem
    · cases heffects _ hmem
  | _ => simp at hmem

/-- A descriptor that a step opens was free, and `accept` has returned it. -/
theorem Handles.fdTable_of_move (h : Handles s w) (hmove : Move s t input effects next) {n : Int}
    {c : ConnId} (hn : (s.applyAll effects).fdTable n = some c) :
    s.fdTable n = some c ∨ input.acceptedFd? = some n ∧ s.fdTable n = none := by
  refine (fdTable_of_applyAll hn).imp_right ?_
  rintro ⟨lobby, hmem⟩
  exact ⟨acceptedFd_of_move hmove hmem, (h.owned.admissible hmove hmem).2⟩

/-- A locked client keeps its descriptor, whoever moves. -/
theorem Handles.fd_of_move (h : Handles s w) (hmove : Move s t input effects next) {u : Thread}
    {c : ConnId} (hc : (s.pc u).holds = some c) :
    ((s.applyAll effects).client c).fd = (s.client c).fd := by
  refine Sys.applyAll_induction (P := fun s' => (s'.client c).fd = (s.client c).fd) ?_ rfl
  intro s' e he ih
  have hadmissible := h.owned.admissible hmove he
  rw [fd_apply, ih]
  · rintro fd memory rfl
    exact (h.owned.open_of_holds hc).ne' hadmissible.2.2.1
  · rintro rfl
    exact hadmissible.1 ⟨u, hc⟩

/-! ## Steps -/

/-- A thread that holds a client after its step has found it under the descriptor of its task, or
has held it before. -/
theorem Handles.held_of_move (h : Handles s w) (hmove : Move s t input effects next) {r : Ref}
    {c : ConnId} (hr : next.ref = some r) (hc : next.holds = some c) :
    (s.client c).fd = r.fd ∧ ∀ e ∈ effects, e.keepsOwners = true := by
  have hkeep (hr' : (s.pc t).ref = some r) (hc' : (s.pc t).holds = some c) :=
    h.held t r c hr' hc'
  cases hmove with
  | lookup hpc hget hfree =>
    cases hr
    cases hc
    exact ⟨(h.owned.shared.entry _ c hget).1, nofun⟩
  | relock hpc hget hfree =>
    cases hr
    cases hc
    exact ⟨(h.owned.shared.entry _ c hget).1, by simp [Effect.keepsOwners]⟩
  | answered hpc hbuf heffects =>
    rw [hpc] at hkeep
    refine ⟨hkeep hr hc, ?_⟩
    intro e he
    rcases List.mem_cons.mp he with rfl | he
    · rfl
    · exact answers_keepsOwners (heffects e he)
  | received hpc | stored hpc | lineSubscribe hpc | lineUnsubscribe hpc | subscribe hpc
  | unsubscribe hpc =>
    rw [hpc] at hkeep
    exact ⟨hkeep hr hc, by simp [Effect.keepsOwners]⟩
  | _ => cases hc

theorem Handle.of_next {kept : Option Handle} {p p' : Pc} {h : Handle}
    (hnext : Handle.next kept p p' = some h) :
    kept = some h ∨ ∃ r c, p = .lines r c ∧ h = ⟨r.fd, c⟩ := by
  unfold Handle.next at hnext
  split at hnext
  next r c _ _ _ _ => exact Or.inr ⟨r, c, rfl, (Option.some.inj hnext).symm⟩
  next => cases hnext
  next => cases hnext
  next => exact Or.inl hnext

/-- What the handle of a thread says after its step. -/
theorem Handles.handled_of_move (h : Handles s w) (hmove : Move s t input effects next) :
    next.Handled (Handle.next (w t) (s.pc t) next) := by
  have hold := h.points t
  cases hmove with
  | linePublish hpc hline hcan =>
    rw [hpc]
    exact ⟨_, rfl⟩
  | @publish r origin topic message hpc hfree =>
    rw [hpc] at hold ⊢
    cases r <;> exact hold
  | @skip r origin topic message fd rest hpc =>
    rw [hpc] at hold ⊢
    cases r <;> exact hold
  | @deliver r origin topic message fd rest c hpc hget hfree =>
    rw [hpc] at hold ⊢
    cases r <;> exact hold
  | relockFailed hpc hget =>
    rw [hpc] at hold ⊢
    obtain ⟨c, hw⟩ := hold
    rintro handle hhandle n hn
    cases List.mem_singleton.mp hn
    cases hw.symm.trans hhandle
    rfl
  | unregistered hpc hget =>
    rw [hpc] at hold ⊢
    exact fun handle hhandle n hn => hold handle hhandle n (List.mem_cons_of_mem _ hn)
  | unregister hpc hread hget =>
    rw [hpc] at hold ⊢
    intro handle hhandle
    have hfd := hold handle hhandle _ List.mem_cons_self
    rw [hfd] at hget
    exact ⟨h.conn_of_byFd hhandle hget,
      fun n hn => hold handle hhandle n (List.mem_cons_of_mem _ hn)⟩
  | destroy hpc hfree =>
    rw [hpc] at hold ⊢
    exact fun handle hhandle => (hold handle hhandle).2
  | handshakeFailed hin hpc | closed hpc | scanned hpc =>
    rw [hpc] at hold ⊢
    intro handle hhandle
    cases hold.symm.trans hhandle
  | _ =>
    rw [‹s.pc t = _›] at hold ⊢
    first | exact hold | rfl

/-- Every step under the condition keeps the handles. -/
theorem Handles.step (h : Handles s w) {a : Act} (hok : Sys.HandlesFresh (s, w) a)
    (hs : s.step a = some s') : Handles s' (Handle.note w s a s') := by
  have howned := h.owned.step hok.2 hs
  obtain ⟨effects, next, hmove, rfl⟩ := Sys.exists_move_of_step hs
  refine ⟨howned, ?_, ?_, ?_⟩
  · intro t r c
    refine Sys.forall_pc_goto (P := fun _ p => p.ref = some r → p.holds = some c →
      ((s.applyAll effects).client c).fd = r.fd) (Sys.pc_applyAll s effects) ?_ ?_ t
    · intro hr hc
      obtain ⟨hfd, hkeeps⟩ := h.held_of_move hmove hr hc
      rw [(sameOwners_applyAll s hkeeps).fd, hfd]
    · intro u _ hr hc
      rw [h.fd_of_move hmove hc]
      exact h.held u r c hr hc
  · intro t
    by_cases ht : t = a.thread
    · rw [ht, Handle.note, Function.update_self, Sys.pc_goto_self]
      exact h.handled_of_move hmove
    · rw [Handle.note, Function.update_of_ne ht, Sys.pc_goto_of_ne _ ht, Sys.pc_applyAll]
      exact h.points t
  · intro t handle hhandle c hc
    -- the handle was there before, or it has just been taken of the locked client
    have hbefore : (w t = some handle) ∨ s.fdTable handle.fd = some handle.conn := by
      by_cases ht : t = a.thread
      · rw [ht, Handle.note, Function.update_self] at hhandle
        rcases Handle.of_next hhandle with hkept | ⟨r, d, hpc, rfl⟩
        · exact Or.inl (ht ▸ hkept)
        · exact Or.inr (h.fdTable_of_holds (t := a.thread) (by rw [hpc]; rfl) (by rw [hpc]; rfl))
      · rw [Handle.note, Function.update_of_ne ht] at hhandle
        exact Or.inl hhandle
    rcases h.fdTable_of_move hmove hc with hold | ⟨haccepted, hfree⟩
    · rcases hbefore with hkept | hopen
      · exact h.current t handle hkept c hold
      · exact Option.some.inj (hold.symm.trans hopen)
    · rcases hbefore with hkept | hopen
      · exact absurd rfl (hok.1 handle.fd haccepted t handle hkept)
      · cases hfree.symm.trans hopen

theorem handles_of_reaches {policy : Policy} {db : Database} {p : Sys × (Thread → Option Handle)}
    (h : Reaches Sys.stepHandles Sys.HandlesFresh (.init policy db, fun _ => none) p) :
    Handles p.1 p.2 := by
  induction h with
  | start => exact ⟨ownedSys_init policy db, nofun, fun _ => rfl, nofun⟩
  | next _ hok hs ih =>
    obtain ⟨hs, hw⟩ := noted_eq_some_iff.mp hs
    rw [hw]
    exact ih.step hok hs

/-! ## What a thread with a handle does -/

/-- Another connection than that of the handle has another descriptor. -/
theorem Handles.fd_ne (h : Handles s w) {handle : Handle} (hw : w t = some handle) {c : ConnId}
    (hc : c ≠ handle.conn) {n : Int} (hn : s.fdTable n = some c) : n ≠ handle.fd := by
  rintro rfl
  exact hc (h.current t handle hw c hn)

/-- `pubsub_unsubscribe_all` on the descriptor of the handle. -/
theorem Handles.untouched_unsubscribeAll (h : Handles s w) {handle : Handle}
    (hw : w t = some handle) {c : ConnId} (hc : c ≠ handle.conn) :
    s.Untouched (s.apply (.unsubscribeAll handle.fd)) c := by
  refine ⟨rfl, fun _ hn => hn, fun _ _ => rfl, fun n hn topic => ?_⟩
  change n ∈ (pubsubUnsubscribeAll s.topics handle.fd).subscribersOf topic ↔ _
  rw [subscribersOf_pubsubUnsubscribeAll]
  exact List.mem_erase_of_ne (h.fd_ne hw hc hn)

/-- The map section of `client_remove` on the descriptor of the handle. -/
theorem Handles.untouched_unregister (h : Handles s w) {handle : Handle} (hw : w t = some handle)
    {c : ConnId} (hc : c ≠ handle.conn) (hget : s.byFd handle.fd = some handle.conn) :
    s.Untouched (s.apply (.unregister handle.fd)) c := by
  refine ⟨congrFun (client_unregister s handle.fd) c, fun _ hn => hn, fun n hn => ?_,
    fun _ _ _ => Iff.rfl⟩
  have hne := h.fd_ne hw hc hn
  have hget' : s.registry.byFd handle.fd = some handle.conn := hget
  change (s.registry.unregister handle.fd).2.clientsMap.get (fdKey n) =
    s.registry.clientsMap.get (fdKey n)
  rw [Registry.unregister, hget']
  refine (Registry.get_dropEntries ..).trans (if_neg ?_)
  rintro (hkey | ⟨-, -, hentry⟩)
  · exact hne (fdKey_injective hkey)
  · -- the key of a descriptor leads to the client with this descriptor
    have hfd := (h.owned.shared.entry n _ hentry).1
    exact hne (hfd.symm.trans (h.owned.shared.entry _ _ hget).1)

/-- `client_remove` tears the client of the handle down. -/
theorem Handles.untouched_tearDown (h : Handles s w) {d c : ConnId} (hc : c ≠ d) :
    s.Untouched (s.apply (.tearDown d)) c := by
  refine ⟨client_tearDown_of_ne s hc, fun n hn => ?_, fun _ _ => rfl, fun _ _ _ => Iff.rfl⟩
  refine (fdTable_tearDown_of_ne s ?_).trans hn
  rintro rfl
  have howner := h.owned.shared.owner d (h.owned.shared.positive _ c hn)
  exact hc (Option.some.inj (hn.symm.trans howner))

/-- A thread with a handle touches no connection but that of the handle. -/
theorem Handles.untouched (h : Handles s w) (hmove : Move s t input effects next)
    {handle : Handle} (hw : w t = some handle) {c : ConnId} (hc : c ≠ handle.conn) :
    s.Untouched (s.applyAll effects) c := by
  have hquiet : s.Untouched s c :=
    ⟨rfl, fun _ hn => hn, fun _ _ => rfl, fun _ _ _ => Iff.rfl⟩
  have hemit (e : Event) : s.Untouched (s.apply (.emit e)) c :=
    ⟨rfl, fun _ hn => hn, fun _ _ => rfl, fun _ _ _ => Iff.rfl⟩
  have hold := h.points t
  cases hmove with
  | publish | skip | published | cliPublished | relockFailed | swept | unregistered => exact hquiet
  | deliver | relock => exact hemit _
  | unsubscribeAll hpc hfree =>
    rw [hpc] at hold
    have hfd := hold handle hw _ List.mem_cons_self
    rw [hfd]
    exact h.untouched_unsubscribeAll hw hc
  | unregister hpc hread hget =>
    rw [hpc] at hold
    have hfd := hold handle hw _ List.mem_cons_self
    rw [hfd] at hget ⊢
    rw [h.conn_of_byFd hw hget] at hget
    exact h.untouched_unregister hw hc hget
  | destroy hpc hfree =>
    rw [hpc] at hold
    rw [(hold handle hw).1]
    exact h.untouched_tearDown hc
  | _ =>
    rw [‹s.pc t = _›] at hold
    cases hold.symm.trans hw

/-- A thread with a handle that locks a client locks that of the handle. -/
theorem Handles.relocks (h : Handles s w) (hmove : Move s t input effects next)
    {handle : Handle} (hw : w t = some handle) {r : Ref} {c : ConnId} (hnext : next = .lines r c) :
    c = handle.conn := by
  have hold := h.points t
  cases hmove with
  | @relock r' topic d hpc hget hfree =>
    cases hnext
    rw [hpc] at hold
    obtain ⟨d, hd⟩ := hold
    cases hw.symm.trans hd
    exact h.conn_of_byFd hw hget
  | received hpc | answered hpc | stored hpc | subscribe hpc | unsubscribe hpc =>
    rw [hpc] at hold
    cases hold.symm.trans hw
  | _ => cases hnext

/-- In every run in which `accept` returns no number that a worker keeps from a `PUBLISH` line and
no accepted common name is a descriptor key: a worker that has published keeps the descriptor of
the connection whose line it executes, the client it locks again is that connection's, and until
then, or until it has removed what it found under the descriptor, it touches no other
connection. -/
theorem worker_continuity (policy : Policy) (db : Database) (s : Sys) (w : Thread → Option Handle)
    (h : Reaches Sys.stepHandles Sys.HandlesFresh (.init policy db, fun _ => none) (s, w)) :
    (∀ t r topic, s.pc t = .relock r topic → ∃ c, w t = some ⟨r.fd, c⟩) ∧
    ∀ a s' handle, s.step a = some s' → w a.thread = some handle →
      (∀ r c, s'.pc a.thread = .lines r c → c = handle.conn) ∧
      ∀ c, c ≠ handle.conn → s.Untouched s' c := by
  have hinv := handles_of_reaches h
  constructor
  · intro t r topic hpc
    have hpoint := hinv.points t
    rwa [hpc] at hpoint
  · intro a s' handle hs hw
    obtain ⟨effects, next, hmove, rfl⟩ := Sys.exists_move_of_step hs
    constructor
    · intro r c hpc
      rw [Sys.pc_goto_self] at hpc
      exact hinv.relocks hmove hw hpc
    · intro c hc
      have huntouched := hinv.untouched hmove hw hc
      exact ⟨huntouched.client, huntouched.fdTable, huntouched.byFd, huntouched.subscribers⟩

/-! ## Runs -/

instance (p : Sys × (Thread → Option Handle)) (a : Act) : Decidable (Sys.HandlesFresh p a) :=
  inferInstanceAs (Decidable ((∀ fd ∈ a.input.acceptedFd?, ∀ t, ∀ h ∈ p.2 t, h.fd ≠ fd) ∧ _))

/-- A named client sends a `PUBLISH` line, and its worker is about to call `pubsub_publish`. -/
def publishLineActs : List Act :=
  acceptActs 5 ++ handshakeActs 5 (ascii "pump") ++ eventActs 5 ++
    [⟨.worker 0, .data (ascii "PUBLISH news hi\n")⟩, ⟨.worker 0, .go⟩]

/-- The worker locks the client again and goes on with its lines. -/
theorem worker_continuity_publishLineActs :
    ∃ s w s', Reaches Sys.stepHandles Sys.HandlesFresh (.init openPolicy .empty, fun _ => none)
        (s, w) ∧
      s.step ⟨.worker 0, .go⟩ = some s' ∧ w (.worker 0) = some ⟨5, 0⟩ ∧
      s'.pc (.worker 0) = .lines ⟨5, 0⟩ 0 ∧ ∀ c, c ≠ 0 → s.Untouched s' c := by
  have hrun : (run (guarded Sys.stepHandles Sys.HandlesFresh)
      (.init openPolicy .empty, fun _ => none)
      (publishLineActs ++ Thread.going (.worker 0) 2)).map
      (fun p => (p.2 (.worker 0), (p.1.step ⟨.worker 0, .go⟩).map fun s' => s'.pc (.worker 0))) =
      some (some ⟨5, 0⟩, some (.lines ⟨5, 0⟩ 0)) := by decide +kernel
  obtain ⟨⟨s, w⟩, hs, hproj⟩ := Option.map_eq_some_iff.mp hrun
  obtain ⟨hw, hstep⟩ := Prod.mk.inj hproj
  obtain ⟨s', hs', hpc⟩ := Option.map_eq_some_iff.mp hstep
  have hreach := reaches_of_run hs
  exact ⟨s, w, s', hreach, hs', hw, hpc,
    ((worker_continuity _ _ s w hreach).2 _ _ _ hs' hw).2⟩

/-- The sweeper removes the client while its worker publishes. -/
def sweptPublisherActs : List Act :=
  publishLineActs ++ List.replicate 61 ⟨.main, .tick⟩ ++ Thread.going .sweeper 7

/-- Without the condition the worker goes on with the next connection on the descriptor, or takes
it out of the registry. -/
theorem handle_misleads_sweptPublisherActs :
    (∃ s w s', Reaches Sys.stepHandles (fun _ a => a.NamePlain)
        (.init openPolicy .empty, fun _ => none) (s, w) ∧
      s.step ⟨.worker 0, .go⟩ = some s' ∧ w (.worker 0) = some ⟨5, 0⟩ ∧
      s'.pc (.worker 0) = .lines ⟨5, 0⟩ 1) ∧
    ∃ s w s', Reaches Sys.stepHandles (fun _ a => a.NamePlain)
        (.init openPolicy .empty, fun _ => none) (s, w) ∧
      s.step ⟨.worker 0, .go⟩ = some s' ∧ w (.worker 0) = some ⟨5, 0⟩ ∧
      s.fdTable 5 = some 1 ∧ s.byFd 5 = some 1 ∧ s'.byFd 5 = none ∧ ¬ s.Untouched s' 1 := by
  constructor
  · have hrun : (run (guarded Sys.stepHandles fun _ a => a.NamePlain)
        (.init openPolicy .empty, fun _ => none)
        (sweptPublisherActs ++ acceptActs 5 ++ Thread.going (.worker 0) 2)).map
        (fun p => (p.2 (.worker 0), (p.1.step ⟨.worker 0, .go⟩).map fun s' => s'.pc (.worker 0))) =
        some (some ⟨5, 0⟩, some (.lines ⟨5, 0⟩ 1)) := by decide +kernel
    obtain ⟨⟨s, w⟩, hs, hproj⟩ := Option.map_eq_some_iff.mp hrun
    obtain ⟨hw, hstep⟩ := Prod.mk.inj hproj
    obtain ⟨s', hs', hpc⟩ := Option.map_eq_some_iff.mp hstep
    exact ⟨s, w, s', reaches_of_run hs, hs', hw, hpc⟩
  · have hrun : (run (guarded Sys.stepHandles fun _ a => a.NamePlain)
        (.init openPolicy .empty, fun _ => none)
        (sweptPublisherActs ++ Thread.going (.worker 0) 3 ++ acceptActs 5 ++
          Thread.going (.worker 0) 1)).map
        (fun p => (p.2 (.worker 0), p.1.fdTable 5, p.1.byFd 5,
          (p.1.step ⟨.worker 0, .go⟩).map fun s' => s'.byFd 5)) =
        some (some ⟨5, 0⟩, some 1, some 1, some none) := by decide +kernel
    obtain ⟨⟨s, w⟩, hs, hproj⟩ := Option.map_eq_some_iff.mp hrun
    obtain ⟨hw, hproj⟩ := Prod.mk.inj hproj
    obtain ⟨hfd, hproj⟩ := Prod.mk.inj hproj
    obtain ⟨hget, hstep⟩ := Prod.mk.inj hproj
    obtain ⟨s', hs', hget'⟩ := Option.map_eq_some_iff.mp hstep
    refine ⟨s, w, s', reaches_of_run hs, hs', hw, hfd, hget, hget', fun huntouched => ?_⟩
    have hsame := huntouched.byFd 5 hfd
    rw [hget, hget'] at hsame
    cases hsame

end AdMQ
