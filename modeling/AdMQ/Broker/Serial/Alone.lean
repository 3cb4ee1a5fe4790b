import AdMQ.Broker.Serial.Serve
import AdMQ.Broker.Threads.Moves

/-!
# A worker alone

While all other threads wait for something to do, the steps of a worker between two
tasks are what serving the task says: the threads refine the tables with their
lines executed one at a time. Nothing that the worker is told on its way matters,
and it gets to the end of its task.
-/

namespace AdMQ

open Core

/-- The steps of a thread. -/
def Act.By (t : Thread) (a : Act) : Prop := a.thread = t

/-- All other threads wait for something to do. -/
def Sys.Alone (s : Sys) (t : Thread) : Prop := ∀ u, u ≠ t → s.pc u = .idle

namespace Sys

/-- What the lines of the clients read and write. -/
def tables (s : Sys) : Tables := ⟨s.policy, s.topics, s.db⟩

/-- A client as the sender of its lines. -/
def senderOf (s : Sys) (c : ConnId) : Sender := ⟨(s.client c).fd, (s.client c).hostname⟩

/-- Whom a publication reaches under a descriptor. -/
def recipient (s : Sys) (fd : Int) : Option ConnId :=
  (s.byFd fd).filter fun c => (s.client c).ssl ∨ 0 < (s.client c).fd

end Sys

/-- The text of a reply to a connection. -/
def Event.replyTo (c : ConnId) : Event → Option CStr
  | .reply d text => if d = c then some text else none
  | _ => none

/-- The recipient and the text of a delivery. -/
def Event.delivery : Event → Option (ConnId × CStr)
  | .delivered _ c _ text => some (c, text)
  | _ => none

namespace Sys

/-- The replies to a connection so far. -/
def repliesTo (s : Sys) (c : ConnId) : List CStr := s.log.reverse.filterMap (Event.replyTo c)

/-- The deliveries so far. -/
def deliveries (s : Sys) : List (ConnId × CStr) := s.log.reverse.filterMap Event.delivery

variable {s : Sys} {t : Thread}

theorem step_of_plan {input : Input} {effects : List Effect} {next : Pc}
    (h : s.plan t input = some (effects, next)) :
    s.step ⟨t, input⟩ = some ((s.applyAll effects).goto t next) := by
  rw [step, h]
  rfl

/-- A step whose plan does not depend on what the thread is told. -/
theorem step_of_forall_plan {effects : List Effect} {next : Pc}
    (h : ∀ input, s.plan t input = some (effects, next)) (a : Act) (ha : a.By t) :
    s.step a = some ((s.applyAll effects).goto t next) := by
  obtain ⟨_, input⟩ := a
  obtain rfl : _ = t := ha
  exact step_of_plan (h input)

namespace Alone

theorem not_locked (h : s.Alone t) (hp : (s.pc t).holds = none) (c : ConnId) : ¬ s.Locked c := by
  rintro ⟨u, hu⟩
  by_cases hut : u = t
  · rw [hut, hp] at hu
    cases hu
  · rw [h u hut] at hu
    cases hu

theorem not_pubsubLocked (h : s.Alone t) (hp : (s.pc t).holdsPubsub = false) :
    ¬ s.PubsubLocked := by
  rintro ⟨u, hu⟩
  by_cases hut : u = t
  · rw [hut, hp] at hu
    cases hu
  · rw [h u hut] at hu
    cases hu

theorem goto (h : s.Alone t) {s' : Sys} (hpc : s'.pc = s.pc) (p : Pc) : (s'.goto t p).Alone t := by
  intro u hu
  rw [pc_goto_of_ne s' hu, hpc]
  exact h u hu

end Alone

@[simp] theorem client_goto (s : Sys) (t : Thread) (p : Pc) : (s.goto t p).client = s.client := rfl

@[simp] theorem senderOf_goto (s : Sys) (t : Thread) (p : Pc) :
    (s.goto t p).senderOf = s.senderOf := rfl

@[simp] theorem recipient_goto (s : Sys) (t : Thread) (p : Pc) :
    (s.goto t p).recipient = s.recipient := rfl

theorem goto_goto (s : Sys) (t : Thread) (p q : Pc) : (s.goto t p).goto t q = s.goto t q := by
  rw [goto, goto, goto, Function.update_idem]

end Sys

/-! ## A publication -/

/-- Where a thread goes on after `pubsub_publish`. -/
def Pc.published : Option Ref → CStr → Pc
  | some r, topic => .relock r topic
  | none, _ => .idle

namespace Sys

variable {s : Sys} {t : Thread}

/-- Add events to the log in their order. -/
def emitAll (s : Sys) (events : List Event) : Sys := { s with log := events.reverse ++ s.log }

/-- The delivery of a publication under a descriptor. -/
def deliveredTo (s : Sys) (origin : Origin) (topic message : CStr) (fd : Int) : List Event :=
  (s.recipient fd).toList.map fun c => .delivered origin c topic (formattedMsg topic message)

theorem emitAll_append (s : Sys) (events more : List Event) :
    s.emitAll (events ++ more) = (s.emitAll events).emitAll more := by
  rw [emitAll, emitAll, emitAll, List.reverse_append, List.append_assoc]

theorem Alone.emitAll (h : s.Alone t) (events : List Event) (p : Pc) :
    ((s.emitAll events).goto t p).Alone t := h.goto rfl p

theorem emitAll_goto (s : Sys) (t : Thread) (p : Pc) (events : List Event) :
    (s.goto t p).emitAll events = (s.emitAll events).goto t p := rfl

/-- The next descriptor of a publication. -/
theorem planPublishing_cons (hfree : ∀ c, ¬ s.Locked c) (r : Option Ref) (origin : Origin)
    (topic message : CStr) (fd : Int) (rest : List Int) :
    s.planPublishing r origin topic message (fd :: rest) =
      some ((s.deliveredTo origin topic message fd).map .emit,
        .publishing r origin topic message rest) := by
  rw [planPublishing, deliveredTo, recipient]
  cases s.byFd fd with
  | none => rfl
  | some c =>
    simp only [hfree c, if_false, Option.filter_some, decide_eq_true_eq]
    split <;> rfl

/-- The subscriber loop runs to its end and delivers to everybody it finds. -/
theorem advances_publishing {r : Option Ref} {origin : Origin} {topic message : CStr}
    {rest : List Int} (halone : s.Alone t)
    (hpc : s.pc t = .publishing r origin topic message rest) :
    Advances step (Act.By t) (rest.length + 1) s
      ((s.emitAll (rest.flatMap (s.deliveredTo origin topic message))).goto t
        (.published r topic)) := by
  induction rest generalizing s with
  | nil =>
    have hplan (input : Input) : s.plan t input = some ([], .published r topic) := by
      rw [plan, hpc]
      cases r <;> rfl
    exact .single (step_of_forall_plan hplan)
  | cons fd rest ih =>
    have hfree := halone.not_locked (by rw [hpc]; rfl)
    have hplan (input : Input) : s.plan t input =
        some ((s.deliveredTo origin topic message fd).map .emit,
          .publishing r origin topic message rest) := by
      rw [plan, hpc]
      exact planPublishing_cons hfree ..
    have happly : s.applyAll ((s.deliveredTo origin topic message fd).map .emit) =
        s.emitAll (s.deliveredTo origin topic message fd) := by
      rw [deliveredTo]
      cases s.recipient fd <;> rfl
    have hnext : ((s.emitAll (s.deliveredTo origin topic message fd)).goto t
        (.publishing r origin topic message rest)).Alone t := halone.goto rfl _
    refine .head (step_of_forall_plan hplan) ?_
    rw [happly, List.flatMap_cons, emitAll_append]
    have hend := ih hnext (pc_goto_self ..)
    rw [emitAll_goto, goto_goto] at hend
    exact hend

end Sys

/-! ## A line -/

theorem Registry.modify_modify (r : Registry) (c : ConnId) (f g : Client → Client) :
    (r.modify c f).modify c g = r.modify c (g ∘ f) := by
  simp only [Registry.modify, Function.update_self, Function.update_idem, Function.comp_apply]

/-- Of the registry only the buffer of a client has changed. -/
def Sys.Rebuffered (s s' : Sys) (c : ConnId) (buffer : ClientBuffer) : Prop :=
  s'.registry = s.registry.modify c fun k => { k with buffer := buffer }

namespace Sys.Rebuffered

variable {s s' s'' : Sys} {c : ConnId} {buffer buffer' : ClientBuffer}

theorem byFd (h : s.Rebuffered s' c buffer) (n : Int) : s'.byFd n = s.byFd n := by
  rw [Sys.byFd, h]
  rfl

/-- A part of the client records that the buffer does not belong to. -/
theorem client_eq {α : Type*} (h : s.Rebuffered s' c buffer) {g : Client → α}
    (hg : ∀ k, g { k with buffer := buffer } = g k) (d : ConnId) :
    g (s'.client d) = g (s.client d) := by
  rw [Sys.client, h]
  exact s.registry.client_modify_eq c d hg

theorem buffer_eq (h : s.Rebuffered s' c buffer) : (s'.client c).buffer = buffer := by
  rw [Sys.client, h, Registry.client_modify_self]

theorem senderOf (h : s.Rebuffered s' c buffer) (d : ConnId) : s'.senderOf d = s.senderOf d := by
  have hfd := h.client_eq (g := Client.fd) fun _ => rfl
  have hname := h.client_eq (g := Client.hostname) fun _ => rfl
  rw [Sys.senderOf, Sys.senderOf, hfd, hname]

theorem recipient (h : s.Rebuffered s' c buffer) : s'.recipient = s.recipient := by
  have hfd := h.client_eq (g := Client.fd) fun _ => rfl
  have hssl := h.client_eq (g := Client.ssl) fun _ => rfl
  funext fd
  simp only [Sys.recipient, h.byFd, hfd, hssl]

theorem deliveredTo (h : s.Rebuffered s' c buffer) : s'.deliveredTo = s.deliveredTo := by
  funext origin topic message fd
  rw [Sys.deliveredTo, h.recipient]
  rfl

theorem trans (h : s.Rebuffered s' c buffer) (h' : s'.Rebuffered s'' c buffer') :
    s.Rebuffered s'' c buffer' := by
  rw [Rebuffered, h', h, Registry.modify_modify]
  rfl

end Sys.Rebuffered

/-- What a stretch of a task has done: its outcome is in the tables and in the log, and of the
registry only the buffer of the client has changed. -/
structure Executes (s s' : Sys) (c : ConnId) (buffer : ClientBuffer) (out : Executed) : Prop where
  tables : s'.tables = out.tables
  registry : s.Rebuffered s' c buffer
  replies : s'.repliesTo c = s.repliesTo c ++ out.replies
  deliveries : s'.deliveries =
    s.deliveries ++ out.deliveries.filterMap fun d => (s.recipient d.1).map (·, d.2)

namespace Executes

variable {s s' s'' : Sys} {c : ConnId} {buffer buffer' : ClientBuffer} {out out' : Executed}

/-- The log of the stretch decides the replies and the deliveries. -/
theorem of_log (events : List Event) (hlog : s'.log = events.reverse ++ s.log)
    (htables : s'.tables = out.tables) (hregistry : s.Rebuffered s' c buffer)
    (hreplies : events.filterMap (Event.replyTo c) = out.replies)
    (hdeliveries : events.filterMap Event.delivery =
      out.deliveries.filterMap fun d => (s.recipient d.1).map (·, d.2)) :
    Executes s s' c buffer out where
  tables := htables
  registry := hregistry
  replies := by
    rw [Sys.repliesTo, hlog, List.reverse_append, List.reverse_reverse, List.filterMap_append,
      hreplies]
    rfl
  deliveries := by
    rw [Sys.deliveries, hlog, List.reverse_append, List.reverse_reverse, List.filterMap_append,
      hdeliveries]
    rfl

/-- Two stretches in a row. -/
theorem trans (h : Executes s s' c buffer out) (h' : Executes s' s'' c buffer' out') :
    Executes s s'' c buffer'
      ⟨out'.tables, out.replies ++ out'.replies, out.deliveries ++ out'.deliveries⟩ where
  tables := h'.tables
  registry := h.registry.trans h'.registry
  replies := by rw [h'.replies, h.replies, List.append_assoc]
  deliveries := by
    rw [h'.deliveries, h.deliveries, List.filterMap_append, List.append_assoc, h.registry.recipient]

end Executes

namespace Sys

variable {s : Sys} {t : Thread} {r : Ref} {c : ConnId}

/-- A worker that stands at its loop over the lines of a client which is registered under the
descriptor of the task, while nobody else moves. -/
structure Serving (s : Sys) (t : Thread) (r : Ref) (c : ConnId) : Prop where
  alone : s.Alone t
  pc_eq : s.pc t = .lines r c
  registered : s.byFd r.fd = some c

theorem Serving.of_executes {s' : Sys} {buffer : ClientBuffer} {out : Executed}
    (h : s.Serving t r c) (hs : Executes s s' c buffer out) (halone : s'.Alone t)
    (hpc : s'.pc t = .lines r c) : s'.Serving t r c :=
  ⟨halone, hpc, (hs.registry.byFd r.fd).trans h.registered⟩

/-- The worker gets from the line in front of it back to the head of its loop. -/
def Serves (s : Sys) (t : Thread) (r : Ref) (c : ConnId) (buffer : ClientBuffer)
    (out : Executed) : Prop :=
  ∃ n s', Advances step (Act.By t) n s s' ∧ s'.Serving t r c ∧ Executes s s' c buffer out

/-- A line that is answered at once. -/
theorem serves_of_plan (h : s.Serving t r c) {effects : List Effect} {buffer : ClientBuffer}
    {out : Executed} (hplan : s.planLine r c = some (effects, .lines r c))
    (hexec : Executes s ((s.applyAll effects).goto t (.lines r c)) c buffer out) :
    s.Serves t r c buffer out := by
  refine ⟨1, _, .single (step_of_forall_plan fun input => ?_), ?_, hexec⟩
  · rw [plan, h.pc_eq]
    exact hplan
  · exact h.of_executes hexec (h.alone.goto (pc_applyAll s effects) _) (pc_goto_self ..)

/-- A line that is refused. -/
theorem serves_denied (h : s.Serving t r c) (buffer : ClientBuffer)
    (hplan : s.planLine r c = some ([.consume c buffer, .emit (.dispatched c (s.client c).hostname),
      .emit (.reply c deniedReply)], .lines r c)) :
    s.Serves t r c buffer (s.tables.answer deniedReply) := by
  refine serves_of_plan h hplan (.of_log [.dispatched c (s.client c).hostname,
    .reply c deniedReply] rfl rfl rfl ?_ rfl)
  simp [Event.replyTo, Tables.answer, List.filterMap_cons]

/-- A line that leads to a call into `pubsub.c`, which the worker comes back from. -/
theorem serves_of_call (h : s.Serving t r c) {effects : List Effect} {next : Pc}
    (hplan : s.planLine r c = some (effects, next)) {n : Nat} {s' : Sys}
    (hcall : Advances step (Act.By t) n ((s.applyAll effects).goto t next) s')
    (hothers : s'.Alone t) (hpc : s'.pc t = .lines r c) {buffer : ClientBuffer} {out : Executed}
    (hexec : Executes s s' c buffer out) : s.Serves t r c buffer out := by
  refine ⟨n + 1, s', .head (step_of_forall_plan fun input => ?_) hcall,
    h.of_executes hexec hothers hpc, hexec⟩
  rw [plan, h.pc_eq]
  exact hplan

end Sys

/-! ## The calls into `pubsub.c` -/

namespace Sys

variable {s : Sys} {t : Thread} {r : Ref} {c : ConnId} {topic : CStr}

theorem advances_subscribe {origin : Origin} {fd : Int} (halone : s.Alone t)
    (hpc : s.pc t = .subscribe (some r) origin c fd topic) :
    Advances step (Act.By t) 1 s ((s.applyAll [.subscribe origin c fd topic,
      .emit (.reply c (subscribedReply topic))]).goto t (.lines r c)) := by
  have hfree := halone.not_pubsubLocked (by rw [hpc]; rfl)
  refine .single (step_of_forall_plan fun input => ?_)
  rw [plan, hpc]
  exact if_neg hfree

theorem advances_unsubscribe {fd : Int} (halone : s.Alone t)
    (hpc : s.pc t = .unsubscribe (some r) c fd topic) :
    Advances step (Act.By t) 1 s ((s.applyAll [.unsubscribe c fd topic,
      .emit (.reply c (unsubscribedReply topic))]).goto t (.lines r c)) := by
  have hfree := halone.not_pubsubLocked (by rw [hpc]; rfl)
  refine .single (step_of_forall_plan fun input => ?_)
  rw [plan, hpc]
  exact if_neg hfree

/-- A whole publication. -/
theorem advances_publish {r : Option Ref} {origin : Origin} {message : CStr} (halone : s.Alone t)
    (hpc : s.pc t = .publish r origin topic message) :
    Advances step (Act.By t) ((s.subscribers topic).length + 1 + 1) s
      ((s.emitAll ((s.subscribers topic).flatMap (s.deliveredTo origin topic message))).goto t
        (.published r topic)) := by
  have hfree := halone.not_pubsubLocked (by rw [hpc]; rfl)
  have hplan (input : Input) : s.plan t input =
      some ([], .publishing r origin topic message (s.subscribers topic)) := by
    rw [plan, hpc]
    exact if_neg hfree
  refine .head (step_of_forall_plan hplan) ?_
  have hnext : (s.goto t (.publishing r origin topic message (s.subscribers topic))).Alone t :=
    halone.goto rfl _
  have hloop := advances_publishing hnext (pc_goto_self ..)
  rw [emitAll_goto, goto_goto] at hloop
  exact hloop

theorem plan_relock (hpc : s.pc t = .relock r topic) (hget : s.byFd r.fd = some c)
    (hfree : ¬ s.Locked c) (input : Input) :
    s.plan t input = some ([.emit (.reply c (publishedReply topic))], .lines r c) := by
  simp only [plan, hpc, hget, hfree, if_false]

/-- A publication of a worker, which finds its client and locks it again. -/
theorem advances_publish_relock {origin : Origin} {message : CStr} (halone : s.Alone t)
    (hpc : s.pc t = .publish (some r) origin topic message) (hget : s.byFd r.fd = some c) :
    Advances step (Act.By t) ((s.subscribers topic).length + 1 + 1 + 1) s
      (((s.emitAll ((s.subscribers topic).flatMap (s.deliveredTo origin topic message))).emit
        (.reply c (publishedReply topic))).goto t (.lines r c)) := by
  have hend := halone.emitAll ((s.subscribers topic).flatMap (s.deliveredTo origin topic message))
    (.published (some r) topic)
  have hfree := hend.not_locked (by rw [pc_goto_self]; rfl) c
  have hfound : ((s.emitAll ((s.subscribers topic).flatMap
      (s.deliveredTo origin topic message))).goto t (.published (some r) topic)).byFd r.fd =
      some c := hget
  have hrelock := Advances.single (step_of_forall_plan
    (plan_relock (pc_goto_self ..) hfound hfree))
  have hboth := (advances_publish halone hpc).trans hrelock
  exact (congrArg (Advances step _ _ s) (goto_goto _ t _ _)).mp hboth

theorem reverse_entering (s : Sys) (c : ConnId) (fd : Int) (topic : CStr) :
    (s.entering c fd topic).reverse = s.entering c fd topic := by
  rw [entering]
  split <;> rfl

theorem filterMap_entering {α : Type*} {f : Event → Option α} {fd : Int}
    (hf : f (.entered c fd topic) = none) (s : Sys) :
    (s.entering c fd topic).filterMap f = [] := by
  rw [entering]
  split
  · rw [List.filterMap_cons_none hf, List.filterMap_nil]
  · rfl

/-- A subscription that is granted. -/
theorem serves_subscribe (h : s.Serving t r c) {buffer : ClientBuffer} {payload : CStr}
    (hplan : s.planLine r c = some ([.consume c buffer, .emit (.dispatched c (s.client c).hostname),
      .logMessage (s.client c).hostname topic payload],
      .subscribe (some r) (s.originOf c) c (s.client c).fd topic)) :
    s.Serves t r c buffer
      (Tables.answer ⟨s.policy, pubsubSubscribe s.topics (s.client c).fd topic,
        s.db.logMessage (s.client c).hostname topic payload⟩ (subscribedReply topic)) := by
  have hcall : Sys.Alone ((s.applyAll [.consume c buffer,
      .emit (.dispatched c (s.client c).hostname),
      .logMessage (s.client c).hostname topic payload]).goto t
      (.subscribe (some r) (s.originOf c) c (s.client c).fd topic)) t := h.alone.goto rfl _
  refine serves_of_call h hplan (advances_subscribe hcall (pc_goto_self ..))
    (hcall.goto (pc_applyAll _ _) _) (pc_goto_self ..) ?_
  refine .of_log ([.dispatched c (s.client c).hostname,
    .subscribed (s.originOf c) c (s.client c).fd topic] ++
      s.entering c (s.client c).fd topic ++ [.reply c (subscribedReply topic)]) ?_ rfl rfl ?_ ?_
  · change Event.reply c (subscribedReply topic) :: (s.entering c (s.client c).fd topic ++
      .subscribed (s.originOf c) c (s.client c).fd topic ::
        .dispatched c (s.client c).hostname :: s.log) = _
    simp [reverse_entering]
  · rw [List.filterMap_append, List.filterMap_append, filterMap_entering rfl]
    simp [Event.replyTo, Tables.answer, List.filterMap_cons]
  · rw [List.filterMap_append, List.filterMap_append, filterMap_entering rfl]
    rfl

/-- A cancellation that is granted. -/
theorem serves_unsubscribe (h : s.Serving t r c) {buffer : ClientBuffer}
    (hplan : s.planLine r c = some
      ([.consume c buffer, .emit (.dispatched c (s.client c).hostname)],
        .unsubscribe (some r) c (s.client c).fd topic)) :
    s.Serves t r c buffer
      (Tables.answer ⟨s.policy, pubsubUnsubscribe s.topics (s.client c).fd topic, s.db⟩
        (unsubscribedReply topic)) := by
  have hcall : Sys.Alone ((s.applyAll [.consume c buffer,
      .emit (.dispatched c (s.client c).hostname)]).goto t
      (.unsubscribe (some r) c (s.client c).fd topic)) t := h.alone.goto rfl _
  refine serves_of_call h hplan (advances_unsubscribe hcall (pc_goto_self ..))
    (hcall.goto (pc_applyAll _ _) _) (pc_goto_self ..) ?_
  refine .of_log [.dispatched c (s.client c).hostname, .unsubscribed c (s.client c).fd topic,
    .reply c (unsubscribedReply topic)] rfl rfl rfl ?_ rfl
  simp [Event.replyTo, Tables.answer, List.filterMap_cons]

/-- The deliveries of a publication, as the log has them. -/
theorem filterMap_delivery (s : Sys) (origin : Origin) (topic message : CStr) (fds : List Int) :
    (fds.flatMap (s.deliveredTo origin topic message)).filterMap Event.delivery =
      (fds.map fun fd => (fd, formattedMsg topic message)).filterMap fun d =>
        (s.recipient d.1).map (·, d.2) := by
  induction fds with
  | nil => rfl
  | cons fd fds ih =>
    rw [List.flatMap_cons, List.filterMap_append, ih, deliveredTo, List.map_cons,
      List.filterMap_cons]
    cases s.recipient fd with
    | none => rfl
    | some c => rfl

theorem filterMap_replyTo (s : Sys) (d : ConnId) (origin : Origin) (topic message : CStr)
    (fds : List Int) :
    (fds.flatMap (s.deliveredTo origin topic message)).filterMap (Event.replyTo d) = [] := by
  induction fds with
  | nil => rfl
  | cons fd fds ih =>
    rw [List.flatMap_cons, List.filterMap_append, ih, deliveredTo]
    cases s.recipient fd with
    | none => rfl
    | some c => rfl

/-- A publication that is granted. -/
theorem serves_publish (h : s.Serving t r c) {buffer : ClientBuffer} {payload : CStr}
    (hplan : s.planLine r c = some ([.consume c buffer, .emit (.dispatched c (s.client c).hostname),
      .logMessage (s.client c).hostname topic payload],
      .publish (some r) (s.originOf c) topic payload)) :
    s.Serves t r c buffer
      ⟨⟨s.policy, s.topics, s.db.logMessage (s.client c).hostname topic payload⟩,
        [publishedReply topic], pubsubPublish s.topics topic payload⟩ := by
  have hcall : Sys.Alone ((s.applyAll [.consume c buffer,
      .emit (.dispatched c (s.client c).hostname),
      .logMessage (s.client c).hostname topic payload]).goto t
      (.publish (some r) (s.originOf c) topic payload)) t := h.alone.goto rfl _
  have hsame : s.Rebuffered ((s.applyAll [.consume c buffer,
      .emit (.dispatched c (s.client c).hostname),
      .logMessage (s.client c).hostname topic payload]).goto t
      (.publish (some r) (s.originOf c) topic payload)) c buffer := rfl
  refine serves_of_call h hplan (advances_publish_relock hcall (pc_goto_self ..) h.registered)
    (hcall.goto rfl _) (pc_goto_self ..) ?_
  rw [hsame.deliveredTo]
  refine .of_log ([.dispatched c (s.client c).hostname] ++
    (s.subscribers topic).flatMap (s.deliveredTo (s.originOf c) topic payload) ++
      [.reply c (publishedReply topic)]) ?_ rfl rfl ?_ ?_
  · change Event.reply c (publishedReply topic) :: (((s.subscribers topic).flatMap
      (s.deliveredTo (s.originOf c) topic payload)).reverse ++
        .dispatched c (s.client c).hostname :: s.log) = _
    simp
  · rw [List.filterMap_append, List.filterMap_append, filterMap_replyTo]
    simp [Event.replyTo, List.filterMap_cons]
  · rw [List.filterMap_append, List.filterMap_append, filterMap_delivery]
    exact List.append_nil _

/-- A line that the policy decides about. -/
theorem serves_checked (h : s.Serving t r c) (can : Bool) {buffer : ClientBuffer}
    {granted : List Effect × Pc} {out : Executed}
    (hplan : s.planLine r c = some (.consume c buffer ::
      .emit (.dispatched c (s.client c).hostname) ::
      (if can then granted else ([.emit (.reply c deniedReply)], .lines r c)).1,
      (if can then granted else ([.emit (.reply c deniedReply)], .lines r c)).2))
    (hgranted : s.planLine r c = some (.consume c buffer ::
      .emit (.dispatched c (s.client c).hostname) :: granted.1, granted.2) →
      s.Serves t r c buffer out) :
    s.Serves t r c buffer (if can then out else s.tables.answer deniedReply) := by
  cases can with
  | false => exact serves_denied h buffer hplan
  | true => exact hgranted hplan

/-- The next line of the client, if it is not empty. -/
theorem serves_execute (h : s.Serving t r c) {line : CStr} {buffer : ClientBuffer}
    (hline : clientBufferExtractLine (s.client c).buffer 1024 = some (line, buffer))
    (hne : messageOf line ≠ []) :
    s.Serves t r c buffer (s.tables.execute (s.senderOf c) (parseCommand (messageOf line))) := by
  have hplan : s.planLine r c = some (.consume c buffer ::
      ((if (parseCommand (messageOf line)).usesHostname then
        [.emit (.dispatched c (s.client c).hostname)] else []) ++
      (s.planCommand r c (parseCommand (messageOf line))).1),
      (s.planCommand r c (parseCommand (messageOf line))).2) := by
    rw [planLine, hline]
    exact if_neg hne
  generalize parseCommand (messageOf line) = cmd at hplan ⊢
  cases cmd with
  | set key value =>
    refine serves_checked h (rbacCanSet s.policy (s.client c).hostname key) hplan fun hplan => ?_
    refine serves_of_plan h hplan (.of_log [.dispatched c (s.client c).hostname,
      .stored (s.originOf c) (s.client c).hostname key value, .reply c (updatedReply key)]
      rfl rfl rfl ?_ rfl)
    simp [Event.replyTo, Tables.answer, List.filterMap_cons]
  | get key payload =>
    refine serves_of_plan h hplan (.of_log [.dispatched c (s.client c).hostname, .reply c _]
      rfl rfl rfl ?_ rfl)
    simp only [Event.replyTo, List.filterMap_cons, List.filterMap_nil, if_true, Tables.execute,
      Tables.answer]
    rfl
  | ping =>
    refine serves_of_plan h hplan (.of_log [.reply c pongReply] rfl rfl rfl ?_ rfl)
    simp [Event.replyTo, Tables.execute, Tables.answer]
  | pong => exact serves_of_plan h hplan (.of_log [] rfl rfl rfl rfl rfl)
  | subscribe topic payload =>
    exact serves_checked h (rbacCanSubscribe s.policy (s.client c).hostname topic) hplan
      (serves_subscribe h)
  | unsubscribe topic =>
    exact serves_checked h (rbacCanUnsubscribe s.policy (s.client c).hostname topic) hplan
      (serves_unsubscribe h)
  | publish topic payload =>
    exact serves_checked h (rbacCanPublish s.policy (s.client c).hostname topic) hplan
      (serves_publish h)
  | invalid =>
    refine serves_of_plan h hplan (.of_log [.reply c invalidReply] rfl rfl rfl ?_ rfl)
    simp [Event.replyTo, Tables.execute, Tables.answer]

/-- The next line of the client. -/
theorem serves_line (h : s.Serving t r c) {line : CStr} {buffer : ClientBuffer}
    (hline : clientBufferExtractLine (s.client c).buffer 1024 = some (line, buffer)) :
    s.Serves t r c buffer (s.tables.serveLine (s.senderOf c) line) := by
  rw [Tables.serveLine]
  split
  next hnil =>
    have hplan : s.planLine r c = some ([.consume c buffer], .lines r c) := by
      rw [planLine, hline]
      exact if_pos hnil
    exact serves_of_plan h hplan (.of_log [] rfl rfl rfl rfl rfl)
  next hne => exact serves_execute h hline hne

/-! ## A task -/

/-- Nothing is left to do. -/
theorem serves_nil (h : s.Serving t r c) :
    s.Serves t r c (s.client c).buffer (s.tables.serveLines (s.senderOf c) []) := by
  refine ⟨0, s, .refl, h, .of_log [] rfl rfl ?_ rfl rfl⟩
  rw [Rebuffered, Registry.modify]
  exact congrArg (Registry.mk s.registry.clientsMap) (Function.update_eq_self c s.client).symm

/-- The lines in the buffer of the client in turn. -/
theorem serves_lines (fuel : Nat) (h : s.Serving t r c) :
    s.Serves t r c (drainLines fuel (s.client c).buffer).2
      (s.tables.serveLines (s.senderOf c) (drainLines fuel (s.client c).buffer).1) := by
  induction fuel generalizing s with
  | zero => exact serves_nil h
  | succ fuel ih =>
    rw [drainLines]
    split
    · exact serves_nil h
    next line buffer hline =>
      obtain ⟨n, s₁, hadv, hserving, hexec⟩ := serves_line h hline
      obtain ⟨m, s₂, hadv', hserving', hexec'⟩ := ih hserving
      rw [hexec.registry.buffer_eq, hexec.registry.senderOf, hexec.tables] at hexec'
      exact ⟨n + m, s₂, hadv.trans hadv', hserving', hexec.trans hexec'⟩

/-- After the last line the descriptor is armed again. -/
theorem advances_drained (h : s.Serving t r c)
    (hnone : clientBufferExtractLine (s.client c).buffer 1024 = none) :
    Advances step (Act.By t) 1 s ((s.applyAll [.epollMod (s.client c).fd]).goto t .idle) := by
  refine .single (step_of_forall_plan fun input => ?_)
  rw [plan, h.pc_eq]
  simp only [planLine, hnone]

/-- What a worker gets to with a task. -/
structure Finished (s s' : Sys) (t : Thread) (c : ConnId) (served : Executed × ClientBuffer) :
    Prop where
  alone : s'.Alone t
  pc_eq : s'.pc t = .idle
  tables : s'.tables = served.1.tables
  buffer : (s'.client c).buffer = served.2
  replies : s'.repliesTo c = s.repliesTo c ++ served.1.replies
  deliveries : s'.deliveries =
    s.deliveries ++ served.1.deliveries.filterMap fun d => (s.recipient d.1).map (·, d.2)

theorem registry_received (s : Sys) (c : ConnId) (chunk : List UInt8) :
    (s.applyAll [.startSsl c, .receive c chunk]).registry = s.registry.modify c fun k =>
      { k with ssl := true, lastActivity := s.now, buffer := clientBufferAppend k.buffer chunk } :=
  s.registry.modify_modify c (fun k => { k with ssl := true }) fun k =>
    { k with lastActivity := s.now, buffer := clientBufferAppend k.buffer chunk }

/-- A part of the client records that a read keeps. -/
theorem client_received_eq {α : Type*} {g : Client → α} (s : Sys) (c : ConnId)
    (chunk : List UInt8) (hg : ∀ k time buffer,
      g { k with ssl := true, lastActivity := time, buffer := buffer } = g k) (d : ConnId) :
    g ((s.applyAll [.startSsl c, .receive c chunk]).client d) = g (s.client d) := by
  rw [Sys.client, registry_received]
  exact s.registry.client_modify_eq c d fun k => hg k _ _

theorem buffer_received (s : Sys) (c : ConnId) (chunk : List UInt8) :
    ((s.applyAll [.startSsl c, .receive c chunk]).client c).buffer =
      clientBufferAppend (s.client c).buffer chunk := by
  rw [Sys.client, registry_received, Registry.client_modify_self]
  rfl

theorem senderOf_received (s : Sys) (c : ConnId) (chunk : List UInt8) :
    (s.applyAll [.startSsl c, .receive c chunk]).senderOf c = s.senderOf c := by
  rw [senderOf, senderOf, s.client_received_eq c chunk (g := Client.fd) fun _ _ _ => rfl,
    s.client_received_eq c chunk (g := Client.hostname) fun _ _ _ => rfl]

/-- The recipients do not change with a read of a client that is open. -/
theorem recipient_received (hopen : 0 < (s.client c).fd) (chunk : List UInt8) :
    (s.applyAll [.startSsl c, .receive c chunk]).recipient = s.recipient := by
  have hfd := s.client_received_eq c chunk (g := Client.fd) fun _ _ _ => rfl
  funext fd
  rw [recipient, recipient]
  change (s.byFd fd).filter _ = _
  congr 1
  funext d
  rw [hfd]
  by_cases hd : d = c
  · rw [hd]
    simp [hopen]
  · rw [Sys.client, registry_received, Registry.client_modify_of_ne _ hd]
    rfl

/-- The refinement: a worker alone with the client of its task reads a chunk and ends up, after
some number of steps and whatever it is told in them, with the outcome of serving the task. -/
theorem exists_finished (halone : s.Alone t) (hpc : s.pc t = .locked r c)
    (hget : s.byFd r.fd = some c) (hopen : 0 < (s.client c).fd)
    (hauth : (s.client c).authStatus = .success) {chunk : List UInt8}
    (hchunk : 0 < chunk.length ∧ chunk.length ≤ 1023) :
    ∃ n s', (∀ acts : List Act, acts.length = n → (∀ a ∈ acts, a.By t) →
        run step s (⟨t, .data chunk⟩ :: acts) = some s') ∧
      s.Finished s' t c (s.tables.serveTask (s.senderOf c) (s.client c).buffer chunk) := by
  have hplan : s.plan t (.data chunk) = some ([.startSsl c, .receive c chunk], .lines r c) := by
    rw [plan, hpc]
    simp only [planLocked, hauth]
    exact if_pos hchunk
  have hserving : Sys.Serving ((s.applyAll [.startSsl c, .receive c chunk]).goto t (.lines r c))
      t r c := ⟨halone.goto rfl _, pc_goto_self .., hget⟩
  obtain ⟨n, s₁, hadv, hserving₁, htables, hregistry, hreplies, hdeliveries⟩ :=
    serves_lines (clientBufferAppend (s.client c).buffer chunk).len hserving
  rw [client_goto, buffer_received] at htables hregistry hreplies hdeliveries
  rw [senderOf_goto, senderOf_received] at htables hreplies hdeliveries
  rw [recipient_goto, recipient_received hopen] at hdeliveries
  have hnone : clientBufferExtractLine (s₁.client c).buffer 1024 = none := by
    rw [hregistry.buffer_eq]
    exact extractLine_drainLines (Nat.le_refl _)
  have hend := hadv.trans (advances_drained hserving₁ hnone)
  refine ⟨n + 1, (s₁.applyAll [.epollMod (s₁.client c).fd]).goto t .idle,
    fun acts hlen hown => ?_, ?_⟩
  · rw [run_cons_of_eq (step_of_plan hplan)]
    exact hend acts hlen hown
  · exact ⟨hserving₁.alone.goto rfl _, pc_goto_self .., htables, hregistry.buffer_eq, hreplies,
      hdeliveries⟩

end Sys

end AdMQ
