import AdMQ.Broker.Threads.Moves

/-!
# Who may do what

Everything that the broker does for a client goes back to a line of a client that
was authenticated and whose name passed the access check, or else to the
operator. This holds in every interleaving: the bytes in a buffer come from an
authenticated client, since nothing is read before the handshake is done, so a
line is never executed for a client that is not authenticated, not even when a
worker comes back from a publication to a client other than its own.
-/

namespace AdMQ

open Core

/-- A publication is the operator's, or that of an authenticated client that may publish. -/
def Origin.MayPublish (policy : Policy) (origin : Origin) (topic : CStr) : Prop :=
  origin = .cli ∨
    ∃ c host, origin = .client c .success host ∧ rbacCanPublish policy host topic = true

/-- A subscription is the operator's, or that of the authenticated client itself if it may
subscribe. -/
def Origin.MaySubscribe (policy : Policy) (origin : Origin) (c : ConnId) (topic : CStr) : Prop :=
  origin = .cli ∨
    ∃ host, origin = .client c .success host ∧ rbacCanSubscribe policy host topic = true

/-- A row of the device state is written by the operator, or by an authenticated client of
that name that may set the key. -/
def Origin.MaySet (policy : Policy) (origin : Origin) (hostname key : CStr) : Prop :=
  origin = .cli ∨
    ∃ c, origin = .client c .success hostname ∧ rbacCanSet policy hostname key = true

/-- The events that need somebody who may cause them. -/
def Event.Authorised (policy : Policy) : Event → Prop
  | .stored origin hostname key _ => origin.MaySet policy hostname key
  | .subscribed origin c _ topic => origin.MaySubscribe policy c topic
  | .delivered origin _ topic _ => origin.MayPublish policy topic
  | _ => True

/-- The points where such an event lies ahead. -/
def Pc.Authorised (policy : Policy) : Pc → Prop
  | .subscribe _ origin c _ topic => origin.MaySubscribe policy c topic ∧ topic.length ≤ 63
  | .publish _ origin topic _ | .publishing _ origin topic _ _ => origin.MayPublish policy topic
  | _ => True

/-- The effects that log such an event. -/
def Effect.Authorised (policy : Policy) : Effect → Prop
  | .store origin hostname key _ => origin.MaySet policy hostname key
  | .subscribe origin c _ topic => origin.MaySubscribe policy c topic
  | .emit e => e.Authorised policy
  | _ => True

/-- Only authenticated clients have bytes waiting. -/
def BuffersAuthenticated (s : Sys) : Prop :=
  ∀ c, 0 < (s.client c).buffer.len → (s.client c).authStatus = .success

/-- The invariant of the broker. -/
structure AuthorisedSys (policy : Policy) (s : Sys) : Prop where
  policy_eq : s.policy = policy
  buffers : BuffersAuthenticated s
  points : ∀ t, (s.pc t).Authorised policy
  events : ∀ e ∈ s.log, e.Authorised policy

/-! ## Effects -/

/-- The events that an effect adds to the log, the newest first. -/
def Effect.events (s : Sys) : Effect → List Event
  | .authenticate c cn => [.verified c cn]
  | .subscribe origin c fd topic => s.entering c fd topic ++ [.subscribed origin c fd topic]
  | .unsubscribe c fd topic => [.unsubscribed c fd topic]
  | .unsubscribeAll fd => [.unsubscribedAll (s.fdTable fd) fd]
  | .store origin hostname key value => [.stored origin hostname key value]
  | .emit e => [e]
  | _ => []

/-- An effect adds its own events to the log and nothing else. -/
theorem log_apply (s : Sys) (e : Effect) : (s.apply e).log = e.events s ++ s.log := by
  cases e with
  | subscribe origin c fd topic =>
    rw [Effect.events, List.append_assoc]
    rfl
  | _ => rfl

/-- `entering` makes no event but the entry itself. -/
theorem Sys.eq_entered_of_mem_entering {s : Sys} {c : ConnId} {fd : Int} {topic : CStr}
    {ev : Event} (h : ev ∈ s.entering c fd topic) : ev = .entered c fd topic := by
  rw [Sys.entering] at h
  split at h
  · exact List.mem_singleton.mp h
  · exact absurd h List.not_mem_nil

/-- The events of an authorised effect are authorised. -/
theorem Effect.Authorised.events {policy : Policy} {e : Effect} (h : e.Authorised policy)
    (s : Sys) : ∀ ev ∈ e.events s, ev.Authorised policy := by
  intro ev hev
  cases e with
  | authenticate c cn =>
    rw [List.mem_singleton.mp hev]
    trivial
  | subscribe origin c fd topic =>
    rcases List.mem_append.mp hev with hev | hev
    · rw [Sys.eq_entered_of_mem_entering hev]
      trivial
    · rw [List.mem_singleton.mp hev]
      exact h
  | unsubscribe c fd topic =>
    rw [List.mem_singleton.mp hev]
    trivial
  | unsubscribeAll fd =>
    rw [List.mem_singleton.mp hev]
    trivial
  | store origin hostname key value =>
    rw [List.mem_singleton.mp hev]
    exact h
  | emit e =>
    rw [List.mem_singleton.mp hev]
    exact h
  | _ => exact absurd hev List.not_mem_nil

/-- No effect changes the policy. -/
theorem policy_apply (s : Sys) (e : Effect) : (s.apply e).policy = s.policy := by
  cases e <;> rfl

/-- Bytes are only read for, and taken from, an authenticated client. -/
def Effect.BufferAuthenticated (s : Sys) : Effect → Prop
  | .receive c _ | .consume c _ => (s.client c).authStatus = .success
  | _ => True

/-- A change of one client matters for the bytes of that client only. -/
theorem BuffersAuthenticated.modifyClient {s : Sys} (h : BuffersAuthenticated s) (c : ConnId)
    {f : Client → Client}
    (hf : 0 < (f (s.client c)).buffer.len → (f (s.client c)).authStatus = .success) :
    BuffersAuthenticated (s.modifyClient c f) := by
  intro d hd
  by_cases hdc : d = c
  · subst hdc
    rw [Sys.client_modifyClient_self] at hd ⊢
    exact hf hd
  · rw [Sys.client_modifyClient_of_ne s hdc] at hd ⊢
    exact h d hd

/-- Effects that read or take bytes for authenticated clients keep the invariant. -/
theorem BuffersAuthenticated.apply {s : Sys} (h : BuffersAuthenticated s) {e : Effect}
    (he : e.BufferAuthenticated s) : BuffersAuthenticated (s.apply e) := by
  cases e with
  | addClient c fd memory =>
    intro d hd
    by_cases hdc : d = c
    · subst hdc
      change 0 <
        (Function.update s.registry.client d (.new fd s.now memory.toJunk) d).buffer.len at hd
      rw [Function.update_self] at hd
      exact absurd hd (Nat.lt_irrefl 0)
    · have hc : (s.apply (.addClient c fd memory)).client d = s.client d :=
        Function.update_of_ne hdc ..
      rw [hc] at hd ⊢
      exact h d hd
  | startSsl c => exact h.modifyClient c (h c)
  | authenticate c cn =>
    exact h.modifyClient c (f := fun k => { k with authStatus := .success, state := .idle })
      fun _ => rfl
  | receive c chunk => exact h.modifyClient c fun _ => he
  | consume c buffer => exact h.modifyClient c fun _ => he
  | mapName fd cn =>
    intro c hc
    have hclient : (s.apply (.mapName fd cn)).client c = s.client c :=
      congrFun (Registry.client_setName ..) c
    rw [hclient] at hc ⊢
    exact h c hc
  | copyName c cn => exact h.modifyClient (s.heir c) (h (s.heir c))
  | unregister fd =>
    intro c hc
    have hclient : (s.apply (.unregister fd)).client c = s.client c :=
      congrFun (Registry.client_unregister ..) c
    rw [hclient] at hc ⊢
    exact h c hc
  | tearDown c => exact h.modifyClient c (f := Client.tornDown) (h c)
  | _ => exact h

/-! ## Steps -/

/-- A step, put together from its effects and its next point. -/
theorem AuthorisedSys.goto {policy : Policy} {s : Sys} (h : AuthorisedSys policy s) {t : Thread}
    {p : Pc} (hp : p.Authorised policy) : AuthorisedSys policy (s.goto t p) := by
  refine ⟨h.policy_eq, h.buffers, ?_, h.events⟩
  exact Sys.forall_pc_goto (P := fun _ q => q.Authorised policy) rfl hp fun u _ => h.points u

/-- An authorised effect keeps the invariant. -/
theorem AuthorisedSys.apply {policy : Policy} {s : Sys} (h : AuthorisedSys policy s) {e : Effect}
    (he : e.Authorised policy) (hbuf : e.BufferAuthenticated s) :
    AuthorisedSys policy (s.apply e) := by
  refine ⟨(policy_apply s e).trans h.policy_eq, h.buffers.apply hbuf, ?_, ?_⟩
  · intro t
    rw [Sys.pc_apply]
    exact h.points t
  · intro ev hev
    rw [log_apply] at hev
    rcases List.mem_append.mp hev with hev | hev
    · exact he.events s ev hev
    · exact h.events ev hev

/-- The effects that read or take no bytes. -/
def Effect.leavesBuffers : Effect → Bool
  | .receive .. | .consume .. => false
  | _ => true

/-- An effect that leaves the buffers alone cannot break their invariant. -/
theorem Effect.bufferAuthenticated_of_leavesBuffers {e : Effect} (h : e.leavesBuffers = true)
    (s : Sys) : e.BufferAuthenticated s := by
  cases e with
  | receive c chunk => cases h
  | consume c buffer => cases h
  | _ => trivial

/-- Authorised effects that leave the buffers alone keep the invariant. -/
theorem AuthorisedSys.applyAll {policy : Policy} {s : Sys} (h : AuthorisedSys policy s)
    {effects : List Effect} (he : ∀ e ∈ effects, e.Authorised policy ∧ e.leavesBuffers = true) :
    AuthorisedSys policy (s.applyAll effects) := by
  refine Sys.applyAll_induction (fun s e hmem hs => hs.apply (he e hmem).1 ?_) h
  exact Effect.bufferAuthenticated_of_leavesBuffers (he e hmem).2 s

/-- The events that anybody may cause. -/
def Event.free : Event → Bool
  | .stored .. | .subscribed .. | .delivered .. => false
  | _ => true

/-- The effects that need no permission and leave the buffers alone. -/
def Effect.free : Effect → Bool
  | .store .. | .subscribe .. | .receive .. | .consume .. => false
  | .emit e => e.free
  | _ => true

/-- A free effect needs no permission and leaves the buffers alone. -/
theorem Effect.authorised_of_free {e : Effect} (h : e.free = true) (policy : Policy) :
    e.Authorised policy ∧ e.leavesBuffers = true := by
  cases e with
  | store | subscribe | receive | consume => cases h
  | emit ev =>
    cases ev with
    | stored | subscribed | delivered => cases h
    | _ => exact ⟨trivial, rfl⟩
  | _ => exact ⟨trivial, rfl⟩

theorem Effect.authorised_of_all_free {effects : List Effect} (h : effects.all Effect.free = true)
    (policy : Policy) : ∀ e ∈ effects, e.Authorised policy ∧ e.leavesBuffers = true :=
  fun e he => Effect.authorised_of_free (List.all_eq_true.mp h e he) policy

/-- An answer to a client needs no permission. -/
theorem Answers.authorised {s : Sys} {c : ConnId} {e : Effect} (h : Answers s c e)
    (policy : Policy) : e.Authorised policy ∧ e.leavesBuffers = true := by
  cases h <;> exact ⟨trivial, rfl⟩

/-- A step that starts with taking a line from the buffer of its client. -/
theorem AuthorisedSys.line {policy : Policy} {s : Sys} (h : AuthorisedSys policy s) {t : Thread}
    {c : ConnId} {buffer : ClientBuffer} {effects : List Effect} {p : Pc}
    (hbuf : 0 < (s.client c).buffer.len)
    (he : ∀ e ∈ effects, e.Authorised policy ∧ e.leavesBuffers = true)
    (hp : p.Authorised policy) :
    AuthorisedSys policy ((s.applyAll (.consume c buffer :: effects)).goto t p) :=
  ((h.apply (e := .consume c buffer) trivial (h.buffers c hbuf)).applyAll he).goto hp

/-- The client whose line is executed is authenticated. -/
theorem AuthorisedSys.originOf_eq {policy : Policy} {s : Sys} (h : AuthorisedSys policy s)
    {c : ConnId} (hbuf : 0 < (s.client c).buffer.len) :
    s.originOf c = .client c .success (s.client c).hostname := by
  rw [Sys.originOf, h.buffers c hbuf]

/-- Every step is authorised. -/
theorem AuthorisedSys.step {policy : Policy} {s s' : Sys} {a : Act} (h : AuthorisedSys policy s)
    (hs : s.step a = some s') : AuthorisedSys policy s' := by
  obtain ⟨effects, next, hmove, rfl⟩ := Sys.exists_move_of_step hs
  have hpoint := h.points a.thread
  cases hmove with
  | @received r c chunk hpc hauth =>
    have hssl := h.apply (e := .startSsl c) trivial trivial
    have hauth' : ((s.apply (.startSsl c)).client c).authStatus = .success :=
      (s.client_modifyClient_eq c c (f := fun k => { k with ssl := true })
        (g := Client.authStatus) fun _ => rfl).trans hauth
    exact (hssl.apply (e := .receive c chunk) trivial hauth').goto trivial
  | answered hpc hbuf heffects =>
    exact h.line hbuf (fun e he => (heffects e he).authorised policy) trivial
  | stored hpc hline hcan =>
    rw [h.policy_eq] at hcan
    refine h.line hline.len_pos ?_ trivial
    intro e he
    rcases List.mem_cons.mp he with rfl | he
    · exact Effect.authorised_of_free rfl policy
    · rcases List.mem_cons.mp he with rfl | he
      · exact ⟨Or.inr ⟨_, h.originOf_eq hline.len_pos, hcan⟩, rfl⟩
      · exact Effect.authorised_of_all_free rfl policy e he
  | lineSubscribe hpc hline hcan hlen =>
    rw [h.policy_eq] at hcan
    exact h.line hline.len_pos (Effect.authorised_of_all_free rfl policy)
      ⟨Or.inr ⟨_, h.originOf_eq hline.len_pos, hcan⟩, hlen⟩
  | lineUnsubscribe hpc hline hcan =>
    exact h.line hline.len_pos (Effect.authorised_of_all_free rfl policy) trivial
  | linePublish hpc hline hcan =>
    rw [h.policy_eq] at hcan
    exact h.line hline.len_pos (Effect.authorised_of_all_free rfl policy)
      (Or.inr ⟨_, _, h.originOf_eq hline.len_pos, hcan⟩)
  | subscribe hpc hfree =>
    rw [hpc] at hpoint
    refine (h.applyAll ?_).goto trivial
    simpa [Effect.leavesBuffers, Effect.Authorised, Event.Authorised] using hpoint.1
  | cliSubscribe hpc hfree =>
    rw [hpc] at hpoint
    refine (h.applyAll ?_).goto trivial
    simpa [Effect.leavesBuffers, Effect.Authorised, Event.Authorised] using hpoint.1
  | publish hpc hfree =>
    rw [hpc] at hpoint
    exact h.goto hpoint
  | skip hpc =>
    rw [hpc] at hpoint
    exact h.goto hpoint
  | deliver hpc hget hfree =>
    rw [hpc] at hpoint
    have hmay : Origin.MayPublish policy _ _ := hpoint
    refine (h.applyAll ?_).goto hpoint
    simpa [Effect.leavesBuffers, Effect.Authorised, Event.Authorised] using hmay
  | cliPublish ht hpc => exact h.goto (Or.inl rfl)
  | cliSet ht hin hpc =>
    refine (h.applyAll ?_).goto trivial
    simp [Effect.leavesBuffers, Effect.Authorised, Origin.MaySet]
  | cliFoundSubscribe ht hpc hget hfree hlen => exact h.goto ⟨Or.inl rfl, hlen⟩
  | _ => exact (h.applyAll (Effect.authorised_of_all_free rfl policy)).goto trivial

/-- Nothing has happened yet that would need a permission. -/
theorem authorisedSys_init (policy : Policy) (db : Database) :
    AuthorisedSys policy (.init policy db) :=
  ⟨rfl, fun _ hc => absurd hc (Nat.lt_irrefl 0), fun _ => trivial, nofun⟩

end AdMQ
