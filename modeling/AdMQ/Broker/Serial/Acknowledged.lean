import AdMQ.Broker.PubSub.Capacity
import AdMQ.Broker.Serial.Alone
import AdMQ.Broker.Threads.Audit

/-!
# Acknowledged subscriptions

The worker answers `Subscribed to` whatever `pubsub_subscribe` did. In runs of
whole tasks in which every subscription of a client finds a slot and room, an
answer holds what it says until the client unsubscribes or is removed: its
descriptor is in the list, leads to the client, and every publication on the
topic runs to its end and is delivered to it.
-/

namespace AdMQ

open Core

/-- The events that end a subscription of a connection: the removal of the subscription or of the
connection. -/
def Event.ends (c : ConnId) (topic : CStr) : Event → Bool
  | .unsubscribed d _ topic' => d = c ∧ topic' = topic
  | .unsubscribedAll d _ => d = some c
  | _ => false

/-- The worker has answered that a connection is subscribed to a topic, and the subscription
has not ended since then. -/
def Acknowledged (c : ConnId) (topic : CStr) (log : List Event) : Prop :=
  Event.reply c (subscribedReply topic) ∈ log.takeWhile fun e => !e.ends c topic

instance (c : ConnId) (topic : CStr) (log : List Event) : Decidable (Acknowledged c topic log) :=
  inferInstanceAs (Decidable (_ ∈ _))

/-- The subscription is in effect. -/
def Sys.Standing (s : Sys) (c : ConnId) (topic : CStr) : Prop :=
  ∃ fd ∈ s.subscribers topic, s.byFd fd = some c ∧ (s.client c).authStatus = .success

/-- The descriptor and the topic of a subscription that a worker is about to make. -/
def Pc.workerSubscribe : Pc → Option (Int × CStr)
  | .subscribe (some _) _ _ fd topic => some (fd, topic)
  | _ => none

/-- The subscriptions of the workers take effect. -/
def Sys.SubscribesAdmitted (s : Sys) (a : Act) : Prop :=
  ∀ p ∈ (s.pc a.thread).workerSubscribe, s.topics.Admits p.1 p.2

/-- The condition on a step: whole tasks, subscriptions that take effect, and accepted common
names that are no descriptor keys. -/
structure Sys.AdmittedSerial (s : Sys) (a : Act) : Prop where
  serial : s.Serial a
  admitted : s.SubscribesAdmitted a
  name : a.NamePlain

/-! ## The log -/

variable {c d : ConnId} {topic t : CStr} {log : List Event}

/-- The latest event does not end the subscription, and it is the answer or comes after it. -/
theorem Acknowledged.of_cons {e : Event} (h : Acknowledged c topic (e :: log)) :
    e.ends c topic = false ∧ (e = .reply c (subscribedReply topic) ∨ Acknowledged c topic log) := by
  rw [Acknowledged, List.takeWhile_cons] at h
  split at h
  next hends =>
    refine ⟨by simpa using hends, ?_⟩
    rcases List.mem_cons.mp h with heq | h
    · exact Or.inl heq.symm
    · exact Or.inr h
  · exact absurd h List.not_mem_nil

/-- The replies that acknowledge a subscription. -/
def acknowledges (text : CStr) : Bool := text.take 2 == ascii "Su"

/-- A reply names its topic. -/
theorem subscribedReply_inj (hlen : topic.length ≤ 63)
    (h : subscribedReply t = subscribedReply topic) : t = topic := by
  have hfront : (ascii "Subscribed to ").length = 14 := rfl
  have hfits : (ascii "Subscribed to " ++ topic ++ [newline]).length ≤ 511 := by
    simp only [List.length_append, List.length_singleton]
    omega
  rw [subscribedReply, subscribedReply, response, response, List.take_of_length_le hfits] at h
  have hfits' : (ascii "Subscribed to " ++ t ++ [newline]).length ≤ 511 := by
    have hlength := congrArg List.length h
    simp only [List.length_take, List.length_append, List.length_singleton] at hlength ⊢
    omega
  rw [List.take_of_length_le hfits'] at h
  exact List.append_cancel_left (List.append_cancel_right h)

/-- The events that acknowledge nothing. -/
def Event.silent : Event → Bool
  | .reply _ text => !acknowledges text
  | _ => true

/-- If the latest event is no answer, the subscription was acknowledged before it. -/
theorem Acknowledged.of_cons_silent {e : Event} (h : Acknowledged c topic (e :: log))
    (he : e.silent = true) : e.ends c topic = false ∧ Acknowledged c topic log := by
  obtain ⟨hends, rfl | h⟩ := h.of_cons
  · cases he
  · exact ⟨hends, h⟩

/-- So it was before several events that are no answers. -/
theorem Acknowledged.of_append_silent {new : List Event} (h : Acknowledged c topic (new ++ log))
    (hnew : ∀ e ∈ new, e.silent = true) : Acknowledged c topic log := by
  induction new with
  | nil => exact h
  | cons e new ih =>
    rw [List.forall_mem_cons] at hnew
    exact ih (h.of_cons_silent hnew.1).2 hnew.2

/-! ## Effects that touch no subscription -/

/-- The effects that change nothing about subscriptions and acknowledge none. -/
def Effect.silent : Effect → Bool
  | .addClient .. | .authenticate .. | .mapName .. | .unregister .. | .tearDown .. => false
  | .subscribe .. | .unsubscribe .. | .unsubscribeAll .. => false
  | .emit e => e.silent
  | _ => true

/-- Two states that agree on what subscriptions are made of. -/
structure SameStanding (s s' : Sys) : Prop where
  topics : s'.topics = s.topics
  byFd : ∀ n, s'.byFd n = s.byFd n
  fd : ∀ c, (s'.client c).fd = (s.client c).fd
  authStatus : ∀ c, (s'.client c).authStatus = (s.client c).authStatus
  log : ∀ c topic, Acknowledged c topic s'.log → Acknowledged c topic s.log

theorem SameStanding.refl (s : Sys) : SameStanding s s :=
  ⟨rfl, fun _ => rfl, fun _ => rfl, fun _ => rfl, fun _ _ h => h⟩

/-- What two steps leave alone, both together leave alone. -/
theorem SameStanding.trans {s s' s'' : Sys} (h : SameStanding s s') (h' : SameStanding s' s'') :
    SameStanding s s'' where
  topics := h'.topics.trans h.topics
  byFd n := (h'.byFd n).trans (h.byFd n)
  fd c := (h'.fd c).trans (h.fd c)
  authStatus c := (h'.authStatus c).trans (h.authStatus c)
  log c topic hack := h.log c topic (h'.log c topic hack)

/-- A client keeps its standing if its descriptor and its authentication stay. -/
theorem sameStanding_modifyClient (s : Sys) (c : ConnId) {f : Client → Client}
    (hfd : ∀ k, (f k).fd = k.fd) (hauth : ∀ k, (f k).authStatus = k.authStatus) :
    SameStanding s (s.modifyClient c f) :=
  ⟨rfl, fun _ => rfl, fun d => s.client_modifyClient_eq c d (g := Client.fd) hfd,
    fun d => s.client_modifyClient_eq c d (g := Client.authStatus) hauth, fun _ _ h => h⟩

/-- Silent effects change no standing. -/
theorem sameStanding_apply (s : Sys) {e : Effect} (h : e.silent = true) :
    SameStanding s (s.apply e) := by
  cases e with
  | addClient | authenticate | mapName | unregister | tearDown => cases h
  | subscribe | unsubscribe | unsubscribeAll => cases h
  | startSsl c => exact sameStanding_modifyClient s c (fun _ => rfl) fun _ => rfl
  | receive c chunk => exact sameStanding_modifyClient s c (fun _ => rfl) fun _ => rfl
  | consume c buffer => exact sameStanding_modifyClient s c (fun _ => rfl) fun _ => rfl
  | copyName c cn => exact sameStanding_modifyClient s (s.heir c) (fun _ => rfl) fun _ => rfl
  | store origin hostname key value =>
    exact ⟨rfl, fun _ => rfl, fun _ => rfl, fun _ => rfl,
      fun _ _ hack => (hack.of_cons_silent rfl).2⟩
  | emit ev =>
    exact ⟨rfl, fun _ => rfl, fun _ => rfl, fun _ => rfl,
      fun _ _ hack => (hack.of_cons_silent h).2⟩
  | _ => exact ⟨rfl, fun _ => rfl, fun _ => rfl, fun _ => rfl, fun _ _ hack => hack⟩

/-- Neither do all those of a step. -/
theorem sameStanding_applyAll (s : Sys) {effects : List Effect}
    (h : ∀ e ∈ effects, e.silent = true) : SameStanding s (s.applyAll effects) :=
  Sys.applyAll_induction (P := SameStanding s)
    (fun s' e he hs => hs.trans (sameStanding_apply s' (h e he))) (.refl s)

/-- A subscription stands on what `SameStanding` compares. -/
theorem Sys.Standing.congr {s s' : Sys} (h : s.Standing c topic) (hs : SameStanding s s') :
    s'.Standing c topic := by
  obtain ⟨fd, hfd, hget, hauth⟩ := h
  refine ⟨fd, ?_, (hs.byFd fd).trans hget, (hs.authStatus c).trans hauth⟩
  rw [Sys.subscribers, hs.topics]
  exact hfd

/-- Nothing that the worker answers before it comes to `pubsub_subscribe` acknowledges a
subscription. -/
theorem silent_planCommand (s : Sys) (r : Ref) (c : ConnId) (cmd : Command) :
    (s.planCommand r c cmd).1.all Effect.silent = true := by
  cases cmd with
  | get key payload =>
    simp only [Sys.planCommand]
    cases s.db.get (s.client c).hostname key <;> rfl
  | ping => rfl
  | pong => rfl
  | invalid => rfl
  | _ =>
    simp only [Sys.planCommand]
    split <;> rfl

/-- Neither does a line, since a subscription is made in a later step. -/
theorem silent_planLine {s : Sys} {r : Ref} {c : ConnId} {effects : List Effect} {next : Pc}
    (h : s.planLine r c = some (effects, next)) : ∀ e ∈ effects, e.silent = true := by
  rw [← List.all_eq_true]
  simp only [Sys.planLine] at h
  split at h
  · obtain ⟨rfl, -⟩ := Sys.eq_of_plan_eq h
    rfl
  · split at h
    · obtain ⟨rfl, -⟩ := Sys.eq_of_plan_eq h
      rfl
    · obtain ⟨rfl, -⟩ := Sys.eq_of_plan_eq h
      rw [List.all_cons, List.all_append, silent_planCommand]
      split <;> rfl

/-! ## Effects on subscriptions -/

/-- Every acknowledged subscription is in effect. -/
def AllStanding (s : Sys) : Prop := ∀ c topic, Acknowledged c topic s.log → s.Standing c topic

/-- A step that changes no standing keeps all subscriptions. -/
theorem AllStanding.congr {s s' : Sys} (h : AllStanding s) (hs : SameStanding s s') :
    AllStanding s' := fun c topic hack => (h c topic (hs.log c topic hack)).congr hs

variable {s : Sys}

/-- A new client takes over no descriptor of a registered one. -/
theorem AllStanding.addClient (h : AllStanding s) (howned : Owned s) {fd : Int}
    {memory : ClientMemory} (hpre : (Effect.addClient c fd memory).Admissible s) :
    AllStanding (s.apply (.addClient c fd memory)) := by
  intro d topic hack
  obtain ⟨n, hn, hget, hauth⟩ := h d topic hack
  obtain ⟨-, howner, hzero, -⟩ := hpre
  obtain ⟨hd, hpos⟩ := howned.entry n d hget
  have hdc : d ≠ c := by
    rintro rfl
    omega
  -- The descriptor of a registered client belongs to it and to nobody else.
  have hne : n ≠ fd := by
    rintro rfl
    exact hdc (Option.some.inj ((howned.fdTable_of_byFd hget).symm.trans howner))
  refine ⟨n, hn, ?_, ?_⟩
  · rw [byFd_addClient, if_neg hne]
    exact hget
  · rw [client_addClient_of_ne s hdc]
    exact hauth

/-- An authentication can only help. -/
theorem AllStanding.authenticate (h : AllStanding s) (c : ConnId) (cn : CStr) :
    AllStanding (s.apply (.authenticate c cn)) := by
  intro d topic hack
  obtain ⟨n, hn, hget, hauth⟩ := h d topic (hack.of_cons_silent rfl).2
  refine ⟨n, hn, hget, ?_⟩
  change ((s.modifyClient c fun k =>
    { k with authStatus := .success, state := .idle }).client d).authStatus = .success
  by_cases hdc : d = c
  · rw [hdc, Sys.client_modifyClient_self]
  · rw [Sys.client_modifyClient_of_ne s hdc]
    exact hauth

/-- A name that is no descriptor key hides no descriptor. -/
theorem AllStanding.mapName (h : AllStanding s) (fd : Int) {cn : CStr} (hcn : isFdKey cn = false) :
    AllStanding (s.apply (.mapName fd cn)) := by
  intro d topic hack
  obtain ⟨n, hn, hget, hauth⟩ := h d topic hack
  refine ⟨n, hn, ?_, ?_⟩
  · rw [byFd_mapName s fd hcn]
    exact hget
  · rw [client_mapName]
    exact hauth

/-- A client may go once its subscriptions have ended. -/
theorem AllStanding.unregister (h : AllStanding s) {fd : Int} (hc : s.byFd fd = some c)
    (hend : ∀ topic, ¬ Acknowledged c topic s.log) : AllStanding (s.apply (.unregister fd)) := by
  intro d topic hack
  have hdc : d ≠ c := by
    rintro rfl
    exact hend topic hack
  obtain ⟨n, hn, hget, hauth⟩ := h d topic hack
  refine ⟨n, hn, byFd_unregister_of_ne hget hc hdc, ?_⟩
  rw [client_unregister]
  exact hauth

/-- Tearing down a client that nobody finds touches no subscription in effect. -/
theorem AllStanding.tearDown (h : AllStanding s) (hgone : ∀ n, s.byFd n ≠ some c) :
    AllStanding (s.apply (.tearDown c)) := by
  intro d topic hack
  obtain ⟨n, hn, hget, hauth⟩ := h d topic hack
  have hdc : d ≠ c := by
    rintro rfl
    exact hgone n hget
  refine ⟨n, hn, hget, ?_⟩
  change ((s.tearDown c).client d).authStatus = .success
  rw [client_tearDown_of_ne s hdc]
  exact hauth

/-- A new entry takes no other out of its list. -/
theorem AllStanding.subscribe (h : AllStanding s) (origin : Origin) (c : ConnId) (fd : Int)
    (hlen : topic.length ≤ 63) : AllStanding (s.apply (.subscribe origin c fd topic)) := by
  intro d t hack
  have hsilent : ∀ e ∈ s.entering c fd topic ++ [.subscribed origin c fd topic],
      e.silent = true := by
    intro e he
    rcases List.mem_append.mp he with he | he
    · rw [Sys.eq_entered_of_mem_entering he]
      rfl
    · rw [List.mem_singleton.mp he]
      rfl
  rw [log_apply] at hack
  obtain ⟨n, hn, hget, hauth⟩ := h d t (hack.of_append_silent hsilent)
  exact ⟨n, PubSub.mem_pubsubSubscribe_of_mem hn fd hlen, hget, hauth⟩

/-- The client that leaves a list ends its own subscription only. -/
theorem AllStanding.unsubscribe (h : AllStanding s) (howned : Owned s) {fd : Int}
    (hfd : (s.client c).fd = fd) (topic : CStr) :
    AllStanding (s.apply (.unsubscribe c fd topic)) := by
  intro d t hack
  obtain ⟨hends, hack⟩ := hack.of_cons_silent rfl
  obtain ⟨n, hn, hget, hauth⟩ := h d t hack
  refine ⟨n, ?_, hget, hauth⟩
  change n ∈ (pubsubUnsubscribe s.topics fd topic).subscribersOf t
  rw [PubSub.subscribersOf_pubsubUnsubscribe]
  split
  next ht =>
    have hdc : c ≠ d := by
      rintro rfl
      simp [Event.ends, ht] at hends
    obtain ⟨hd, hpos⟩ := howned.entry n d hget
    have hne : n ≠ fd := by
      rintro rfl
      exact hdc (howned.eq_of_fd hfd hd hpos)
    exact (List.mem_erase_of_ne hne).mpr hn
  · exact hn

/-- A descriptor that leaves all lists ends the subscriptions of its own client only. -/
theorem AllStanding.unsubscribeAll (h : AllStanding s) (howned : Owned s) (fd : Int) :
    AllStanding (s.apply (.unsubscribeAll fd)) := by
  intro d t hack
  obtain ⟨hends, hack⟩ := hack.of_cons_silent rfl
  obtain ⟨n, hn, hget, hauth⟩ := h d t hack
  refine ⟨n, ?_, hget, hauth⟩
  change n ∈ (pubsubUnsubscribeAll s.topics fd).subscribersOf t
  rw [subscribersOf_pubsubUnsubscribeAll]
  have hne : n ≠ fd := by
    rintro rfl
    simp [Event.ends, howned.fdTable_of_byFd hget] at hends
  exact (List.mem_erase_of_ne hne).mpr hn

/-- After `pubsub_unsubscribe_all` the client under the descriptor has no acknowledged
subscription. -/
theorem Owned.not_acknowledged_unsubscribeAll (h : Owned s) {fd : Int} (hget : s.byFd fd = some c)
    (topic : CStr) : ¬ Acknowledged c topic (s.apply (.unsubscribeAll fd)).log := by
  intro hack
  obtain ⟨hends, -⟩ := hack.of_cons_silent rfl
  simp [Event.ends, h.fdTable_of_byFd hget] at hends

/-- A client whose handshake is not over has no acknowledged subscription. -/
theorem AllStanding.not_acknowledged_of_pending (h : AllStanding s)
    (hauth : (s.client c).authStatus = .pending) (topic : CStr) :
    ¬ Acknowledged c topic s.log := by
  intro hack
  obtain ⟨-, -, -, hsuccess⟩ := h c topic hack
  rw [hauth] at hsuccess
  cases hsuccess

/-- A subscription that takes effect, and its answer. -/
theorem AllStanding.acknowledge (h : AllStanding s) {fd : Int} (hlen : topic.length ≤ 63)
    (hmem : fd ∈ s.subscribers topic) (hget : s.byFd fd = some c)
    (hauth : (s.client c).authStatus = .success) :
    AllStanding (s.apply (.emit (.reply c (subscribedReply topic)))) := by
  intro d t hack
  obtain ⟨-, heq | hack⟩ := hack.of_cons
  · obtain ⟨rfl, hreply⟩ := Event.reply.inj heq
    rw [subscribedReply_inj hlen hreply.symm]
    exact ⟨fd, hmem, hget, hauth⟩
  · exact h d t hack

/-! ## Steps -/

/-- What holds at the point of a thread in a run of whole tasks. -/
def PointSettled (s : Sys) : Pc → Prop
  | .locked r c | .lines r c => s.byFd r.fd = some c
  | .subscribe (some r) _ c fd _ =>
    s.byFd r.fd = some c ∧ fd = r.fd ∧ (s.client c).authStatus = .success
  | .unsubscribe r c fd _ => (s.client c).fd = fd ∧ ∀ q ∈ r, s.byFd q.fd = some c
  | .remove fd _ => ∀ c, s.byFd fd = some c → ∀ topic, ¬ Acknowledged c topic s.log
  | _ => True

/-- What such runs keep. -/
structure SettledSys (policy : Policy) (s : Sys) : Prop where
  owned : OwnedSys s
  authorised : AuthorisedSys policy s
  standing : AllStanding s
  points : ∀ t, PointSettled s (s.pc t)
  /-- At most one thread is in the middle of something. -/
  alone : ∃ t, s.Alone t

/-- What a thread knows of its client survives steps that change no standing. -/
theorem PointSettled.congr {s s' : Sys} {p : Pc} (h : PointSettled s p) (hs : SameStanding s s') :
    PointSettled s' p := by
  cases p with
  | locked r c => exact (hs.byFd r.fd).trans h
  | lines r c => exact (hs.byFd r.fd).trans h
  | subscribe r origin c fd topic =>
    cases r with
    | none => trivial
    | some r => exact ⟨(hs.byFd r.fd).trans h.1, h.2.1, (hs.authStatus c).trans h.2.2⟩
  | unsubscribe r c fd topic =>
    exact ⟨(hs.fd c).trans h.1, fun q hq => (hs.byFd q.fd).trans (h.2 q hq)⟩
  | remove fd rest =>
    intro c hc topic hack
    rw [hs.byFd] at hc
    exact h c hc topic (hs.log c topic hack)
  | _ => trivial

/-- What a step of the kind has to establish beyond the invariants of all interleavings. -/
def Settles (s : Sys) (effects : List Effect) (next : Pc) : Prop :=
  AllStanding (s.applyAll effects) ∧ PointSettled (s.applyAll effects) next

/-- A step that touches no subscription. -/
theorem settles_of_silent (h : AllStanding s) {effects : List Effect} {next : Pc}
    (heffects : ∀ e ∈ effects, e.silent = true) (hnext : PointSettled s next) :
    Settles s effects next :=
  ⟨h.congr (sameStanding_applyAll s heffects), hnext.congr (sameStanding_applyAll s heffects)⟩

/-- Every step under the condition keeps the acknowledged subscriptions in effect. -/
theorem SettledSys.settles {policy : Policy} (h : SettledSys policy s) {a : Act}
    (hadmitted : s.SubscribesAdmitted a) {effects : List Effect} {next : Pc}
    (hplan : s.plan a.thread a.input = some (effects, next)) : Settles s effects next := by
  have hmove := Sys.plan_move hplan
  have hpoint := h.points a.thread
  have howned := h.owned.points a.thread
  have hauthorised := h.authorised.points a.thread
  -- A line is taken from the buffer of the locked client.
  have hlines {r : Ref} {c : ConnId} (hpc : s.pc a.thread = .lines r c) :
      s.byFd r.fd = some c ∧ ∀ e ∈ effects, e.silent = true := by
    rw [hpc] at hpoint
    rw [Sys.plan, hpc] at hplan
    exact ⟨hpoint, silent_planLine hplan⟩
  cases hmove with
  | add hin hpc hread hmemory =>
    have hpre := h.owned.admissible (.add hin hpc hread hmemory) List.mem_cons_self
    exact ⟨h.standing.addClient h.owned.shared hpre, trivial⟩
  | lookup hpc hget hfree => exact settles_of_silent h.standing (List.forall_mem_nil _) hget
  | handshakeFailed hin hpc hauth =>
    rw [hpc] at hpoint
    refine settles_of_silent h.standing (List.all_eq_true.mp rfl) ?_
    intro d hd
    obtain rfl := Option.some.inj (hpoint.symm.trans hd)
    exact h.standing.not_acknowledged_of_pending hauth
  | @verified r c cn hin hpc hauth =>
    exact ⟨(h.standing.congr (sameStanding_apply s rfl)).authenticate c cn, trivial⟩
  | received hpc hauth =>
    rw [hpc] at hpoint
    exact settles_of_silent h.standing (List.all_eq_true.mp rfl) hpoint
  | drained hpc => exact settles_of_silent h.standing (hlines hpc).2 trivial
  | answered hpc hbuf heffects =>
    exact settles_of_silent h.standing (hlines hpc).2 (hlines hpc).1
  | stored hpc hline hcan =>
    exact settles_of_silent h.standing (hlines hpc).2 (hlines hpc).1
  | lineSubscribe hpc hline hcan hlen =>
    obtain ⟨hget, hsilent⟩ := hlines hpc
    exact settles_of_silent h.standing hsilent
      ⟨hget, (h.owned.shared.entry _ _ hget).1, h.authorised.buffers _ hline.len_pos⟩
  | lineUnsubscribe hpc hline hcan =>
    obtain ⟨hget, hsilent⟩ := hlines hpc
    refine settles_of_silent h.standing hsilent ⟨rfl, ?_⟩
    rintro q hq
    rw [← Option.some.inj hq]
    exact hget
  | linePublish hpc hline hcan => exact settles_of_silent h.standing (hlines hpc).2 trivial
  | relock hpc hget hfree => exact settles_of_silent h.standing (List.all_eq_true.mp rfl) hget
  | mapName hpc hread hget =>
    rw [hpc] at howned
    exact ⟨h.standing.mapName _ howned, trivial⟩
  | subscribe hpc hfree =>
    rw [hpc] at hpoint hauthorised
    rw [Sys.SubscribesAdmitted, hpc] at hadmitted
    obtain ⟨hget, rfl, hauth⟩ := hpoint
    have hmem := (PubSub.mem_pubsubSubscribe_self_iff _ _ hauthorised.2).mpr (hadmitted _ rfl)
    exact ⟨(h.standing.subscribe _ _ _ hauthorised.2).acknowledge hauthorised.2 hmem hget hauth,
      hget⟩
  | cliSubscribe hpc hfree =>
    rw [hpc] at hauthorised
    exact ⟨h.standing.subscribe _ _ _ hauthorised.2, trivial⟩
  | @unsubscribe r c fd topic hpc hfree =>
    rw [hpc] at hpoint
    have hstanding := h.standing.unsubscribe h.owned.shared hpoint.1 topic
    have hreply : (Effect.emit (.reply c (unsubscribedReply topic))).silent = true := rfl
    exact ⟨hstanding.congr (sameStanding_apply _ hreply), hpoint.2 _ rfl⟩
  | cliUnsubscribe hpc hfree =>
    rw [hpc] at hpoint
    exact ⟨h.standing.unsubscribe h.owned.shared hpoint.1 _, trivial⟩
  | unsubscribeAll hpc hfree =>
    exact ⟨h.standing.unsubscribeAll h.owned.shared _, fun d hd =>
      h.owned.shared.not_acknowledged_unsubscribeAll hd⟩
  | unregister hpc hread hget =>
    rw [hpc] at hpoint
    exact ⟨h.standing.unregister hget (hpoint _ hget), trivial⟩
  | destroy hpc hfree =>
    rw [hpc] at howned
    exact ⟨h.standing.tearDown howned.2, trivial⟩
  | cliFoundUnsubscribe ht hpc hget hfree =>
    exact settles_of_silent h.standing (List.forall_mem_nil _) ⟨rfl, fun _ hq => by cases hq⟩
  | _ => exact settles_of_silent h.standing (List.all_eq_true.mp rfl) trivial

/-- The step lemma of the invariant. -/
theorem SettledSys.step {policy : Policy} (h : SettledSys policy s) {s' : Sys} {a : Act}
    (hok : s.AdmittedSerial a) (hs : s.step a = some s') : SettledSys policy s' := by
  have howned := h.owned.step hok.name hs
  have hauthorised := h.authorised.step hs
  obtain ⟨⟨effects, next⟩, hplan, rfl⟩ := Option.map_eq_some_iff.mp hs
  obtain ⟨hstanding, hnext⟩ := h.settles hok.admitted hplan
  refine ⟨howned, hauthorised, hstanding, ?_, a.thread, ?_⟩
  · refine Sys.forall_pc_goto (P := fun _ q => PointSettled _ q) (Sys.pc_applyAll s effects)
      hnext fun u hu => ?_
    rw [hok.serial u hu]
    trivial
  · exact Sys.Alone.goto hok.serial (Sys.pc_applyAll s effects) next

theorem settledSys_init (policy : Policy) (db : Database) : SettledSys policy (.init policy db) :=
  ⟨ownedSys_init policy db, authorisedSys_init policy db, fun _ _ => nofun, fun _ => trivial,
    .main, fun _ _ => rfl⟩

/-- The invariant holds along every run that meets the condition. -/
theorem settledSys_of_reaches {policy : Policy} {db : Database}
    (h : Reaches Sys.step Sys.AdmittedSerial (.init policy db) s) : SettledSys policy s :=
  h.invariant (settledSys_init policy db) fun _ _ _ hinv hok hs => hinv.step hok hs

/-- A thread in the middle of something is alone. -/
theorem SettledSys.alone_of_pc {policy : Policy} (h : SettledSys policy s) {t : Thread}
    (hpc : s.pc t ≠ .idle) : s.Alone t := by
  obtain ⟨u, hu⟩ := h.alone
  by_cases htu : t = u
  · rwa [htu]
  · exact absurd (hu t htu) hpc

/-- A thread that is about to publish gets to the end of the subscriber loop, and a connection
is among those that are written to. -/
def Sys.PublishesTo (s : Sys) (t : Thread) (origin : Origin) (topic message : CStr)
    (c : ConnId) : Prop :=
  ∃ n s' new, Advances Sys.step (Act.By t) n s s' ∧ s'.log = new ++ s.log ∧
    .delivered origin c topic (formattedMsg topic message) ∈ new

/-- A publication is delivered to every client that its list leads to. -/
theorem Sys.publishesTo_of_standing {t : Thread} {r : Option Ref} {origin : Origin}
    {message : CStr} (halone : s.Alone t) (hpc : s.pc t = .publish r origin topic message)
    {fd : Int} (hmem : fd ∈ s.subscribers topic) (hto : s.recipient fd = some c) :
    s.PublishesTo t origin topic message c := by
  refine ⟨_, _, _, Sys.advances_publish halone hpc, rfl, ?_⟩
  rw [List.mem_reverse, List.mem_flatMap]
  refine ⟨fd, hmem, ?_⟩
  rw [Sys.deliveredTo, hto]
  exact List.mem_singleton_self _

/-- In every run of whole tasks whose subscriptions find a slot and room: from the moment the
worker has answered `Subscribed to` until the client unsubscribes or is removed, the descriptor of
the client is in the list of the topic, and every publication on the topic is delivered to the
client. -/
theorem acknowledged_subscription_effective (policy : Policy) (db : Database) (s : Sys)
    (h : Reaches Sys.step Sys.AdmittedSerial (.init policy db) s) (c : ConnId) (topic : CStr)
    (hack : Acknowledged c topic s.log) :
    (s.client c).fd ∈ s.subscribers topic ∧
    ∀ t r origin message, s.pc t = .publish r origin topic message →
      s.PublishesTo t origin topic message c := by
  have hinv := settledSys_of_reaches h
  obtain ⟨fd, hmem, hget, -⟩ := hinv.standing c topic hack
  obtain ⟨hfd, hpos⟩ := hinv.owned.shared.entry fd c hget
  refine ⟨hfd ▸ hmem, fun t r origin message hpc => ?_⟩
  have halone := hinv.alone_of_pc (t := t) (by rw [hpc]; exact Pc.noConfusion)
  refine Sys.publishesTo_of_standing halone hpc hmem ?_
  rw [Sys.recipient, hget, Option.filter_some, if_pos]
  exact decide_eq_true (Or.inr (hfd ▸ hpos))

/-! ## Runs -/

instance (s : Sys) (a : Act) : Decidable (s.SubscribesAdmitted a) :=
  inferInstanceAs (Decidable (∀ p ∈ (s.pc a.thread).workerSubscribe, s.topics.Admits p.1 p.2))

theorem Sys.admittedSerial_iff (s : Sys) (a : Act) :
    s.AdmittedSerial a ↔ s.Serial a ∧ s.SubscribesAdmitted a ∧ a.NamePlain :=
  ⟨fun h => ⟨h.serial, h.admitted, h.name⟩, fun h => ⟨h.1, h.2.1, h.2.2⟩⟩

instance (s : Sys) (a : Act) : Decidable (s.AdmittedSerial a) :=
  decidable_of_iff _ (s.admittedSerial_iff a).symm

/-- A client subscribes to a topic and is about to publish on it. -/
def echoActs : List Act :=
  acceptActs 5 ++ handshakeActs 5 (ascii "pump") ++ eventActs 5 ++
    ⟨.worker 0, .data (ascii "SUBSCRIBE news\nPUBLISH news hi\n")⟩ :: Thread.going (.worker 0) 3

theorem acknowledged_subscription_effective_echoActs :
    ∃ s, Reaches Sys.step Sys.AdmittedSerial (.init openPolicy .empty) s ∧
      Acknowledged 0 (ascii "news") s.log ∧
      s.PublishesTo (.worker 0) (.client 0 .success (ascii "pump")) (ascii "news") (ascii "hi")
        0 := by
  have hrun : (run (guarded Sys.step Sys.AdmittedSerial) (.init openPolicy .empty) echoActs).map
      (fun s => (s.pc (.worker 0), decide (Acknowledged 0 (ascii "news") s.log))) =
      some (.publish (some ⟨5, 0⟩) (.client 0 .success (ascii "pump")) (ascii "news") (ascii "hi"),
        true) := by
    decide +kernel
  obtain ⟨s, hs, hproj⟩ := Option.map_eq_some_iff.mp hrun
  obtain ⟨hpc, hack⟩ := Prod.mk.inj hproj
  have hreach := reaches_of_run hs
  have hack := of_decide_eq_true hack
  exact ⟨s, hreach, hack,
    (acknowledged_subscription_effective _ _ s hreach 0 _ hack).2 _ _ _ _ hpc⟩

/-- The operator subscribes a client to as many topics as there are slots. -/
def crowdingActs : List Act :=
  (List.range 50).flatMap fun i =>
    [⟨.cli, .command (.subscribe (ascii "pump") [UInt8.ofNat (65 + i)])⟩, ⟨.cli, .go⟩]

/-- Then the client subscribes to one more. -/
def crowdedActs : List Act :=
  acceptActs 5 ++ handshakeActs 5 (ascii "pump") ++ crowdingActs ++ eventActs 5 ++
    ⟨.worker 0, .data (ascii "SUBSCRIBE news\n")⟩ :: Thread.going (.worker 0) 2

/-- The last subscription is acknowledged without any effect. -/
theorem acknowledged_without_effect_crowdedActs :
    ∃ s, Reaches Sys.step (fun s a => s.Serial a ∧ a.NamePlain) (.init openPolicy .empty) s ∧
      s.log.head? = some (.reply 0 (ascii "Subscribed to news\n")) ∧
      (s.client 0).fd = 5 ∧ s.subscribers (ascii "news") = [] := by
  have hrun : (run (guarded Sys.step fun s a => s.Serial a ∧ a.NamePlain)
      (.init openPolicy .empty) crowdedActs).map
      (fun s => (s.log.head?, (s.client 0).fd, s.subscribers (ascii "news"))) =
      some (some (.reply 0 (ascii "Subscribed to news\n")), 5, []) := by
    decide +kernel
  obtain ⟨s, hs, hproj⟩ := Option.map_eq_some_iff.mp hrun
  obtain ⟨hlog, hproj⟩ := Prod.mk.inj hproj
  obtain ⟨hfd, hsubs⟩ := Prod.mk.inj hproj
  exact ⟨s, reaches_of_run hs, hlog, hfd, hsubs⟩

end AdMQ
