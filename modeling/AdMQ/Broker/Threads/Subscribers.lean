import AdMQ.Broker.Threads.Authority
import AdMQ.Broker.Threads.Ownership
import AdMQ.Core.Journal

/-!
# The subscribers of a topic and the connections they stand for

The topic table knows descriptors, and the kernel gives a closed descriptor to
the next connection. A list entry therefore stands for the right connection only
if it is gone before its descriptor is closed and no late call puts it back. The
removal paths delete the entries first; what is left to the threads is that no
subscription falls between the deletion and the close, that the operator's
subscription finds its client still open, and that a handshake fails only for a
descriptor nobody has subscribed.
-/

namespace AdMQ

open Core

/-- The connection on whose behalf a descriptor was put into the list of a topic last. -/
def entryOf (topic : CStr) (fd : Int) (log : List Event) : Option ConnId :=
  log.findSome? fun
    | .entered c fd' topic' => if fd' = fd ∧ topic' = topic then some c else none
    | _ => none

/-- The events about a connection and a topic. -/
def Event.concerns (topic : CStr) (c : ConnId) : Event → Bool
  | .subscribed _ d _ topic' => d = c ∧ topic' = topic
  | .unsubscribed d _ topic' => d = c ∧ topic' = topic
  | .unsubscribedAll d _ => d = some c
  | _ => false

/-- The latest event about a connection and a topic is an authorised subscription. -/
def SubscribedSince (policy : Policy) (log : List Event) (topic : CStr) (c : ConnId) : Prop :=
  ∃ origin fd, log.find? (Event.concerns topic c) = some (.subscribed origin c fd topic) ∧
    origin.MaySubscribe policy c topic

/-- What a delivery needs: an authorised subscription of the receiver before it. -/
def Served (policy : Policy) (older : List Event) (e : Event) : Prop :=
  ∀ origin c topic text, e = .delivered origin c topic text →
    ∃ by' fd, Event.subscribed by' c fd topic ∈ older ∧ by'.MaySubscribe policy c topic

/-- The subscriber lists, as the connections and the log account for them. -/
structure ListsSound (policy : Policy) (s : Sys) : Prop where
  nodup : s.topics.ListsNodup
  /-- Every descriptor in a list is the one of an open client that subscribed. -/
  member : ∀ topic n, 0 < n → n ∈ s.subscribers topic →
    ∃ c, (s.client c).fd = n ∧ entryOf topic n s.log = some c ∧ SubscribedSince policy s.log topic c
  deliveries : Grounded (Served policy) s.log

/-- The descriptor that a thread is about to close. -/
def Pc.closing (s : Sys) : Pc → Option Int
  | .remove fd _ => some fd
  | .destroy c _ => some (s.client c).fd
  | _ => none

/-- What holds of the lists at the point of a thread. -/
def PointLists (s : Sys) : Pc → Prop
  | .publishing _ _ topic _ rest => ∀ n ∈ rest, n ∈ s.subscribers topic
  | .unsubscribe _ c fd _ => (s.client c).fd ≠ 0 ∧ (0 < (s.client c).fd → (s.client c).fd = fd)
  | p => ∀ n, p.closing s = some n → 0 < n → ∀ topic, n ∉ s.subscribers topic

/-- The invariant of the broker. -/
structure SubscribersSys (policy : Policy) (s : Sys) : Prop where
  shared : ListsSound policy s
  points : ∀ t, PointLists s (s.pc t)

/-! ## Events that touch no list -/

/-- The events that are not about subscriber lists. -/
def Event.plain : Event → Bool
  | .verified .. | .dispatched .. | .stored .. | .reply .. => true
  | _ => false

theorem concerns_of_plain {e : Event} (h : e.plain = true) (topic : CStr) (c : ConnId) :
    e.concerns topic c = false := by
  cases e with
  | verified c cn => rfl
  | dispatched c hostname => rfl
  | stored origin hostname key value => rfl
  | reply c text => rfl
  | _ => cases h

theorem entryOf_append_of_plain {new : List Event} (h : ∀ e ∈ new, e.plain = true) (topic : CStr)
    (fd : Int) (log : List Event) : entryOf topic fd (new ++ log) = entryOf topic fd log := by
  rw [entryOf, List.findSome?_append, List.findSome?_eq_none_iff.mpr, Option.none_or, entryOf]
  intro e he
  cases e with
  | entered c fd' topic' => cases h _ he
  | _ => rfl

theorem SubscribedSince.append {policy : Policy} {log new : List Event} {topic : CStr} {c : ConnId}
    (h : SubscribedSince policy log topic c) (hnew : ∀ e ∈ new, e.concerns topic c = false) :
    SubscribedSince policy (new ++ log) topic c := by
  obtain ⟨origin, fd, hfind, hmay⟩ := h
  exact ⟨origin, fd, (find?_append_of_none hnew).trans hfind, hmay⟩

theorem SubscribedSince.cons {policy : Policy} {log : List Event} {topic : CStr} {c : ConnId}
    (h : SubscribedSince policy log topic c) {e : Event} (he : e.concerns topic c = false) :
    SubscribedSince policy (e :: log) topic c := by
  have hnew : ∀ e' ∈ [e], e'.concerns topic c = false := by simpa using he
  exact h.append hnew

theorem served_of_plain {policy : Policy} {e : Event} (h : e.plain = true) (older : List Event) :
    Served policy older e := by
  rintro origin c topic text rfl
  cases h

/-- Two states that agree on the lists and on the descriptors of the clients. -/
structure SameLists (s s' : Sys) : Prop where
  topics : s'.topics = s.topics
  fd : ∀ c, (s'.client c).fd = (s.client c).fd
  log : ∃ new, s'.log = new ++ s.log ∧ ∀ e ∈ new, e.plain = true

theorem SameLists.refl (s : Sys) : SameLists s s := ⟨rfl, fun _ => rfl, [], rfl, nofun⟩

theorem SameLists.trans {s s' s'' : Sys} (h : SameLists s s') (h' : SameLists s' s'') :
    SameLists s s'' := by
  obtain ⟨new, hnew, hplain⟩ := h.log
  obtain ⟨new', hnew', hplain'⟩ := h'.log
  refine ⟨h'.topics.trans h.topics, fun c => (h'.fd c).trans (h.fd c), new' ++ new, ?_, ?_⟩
  · rw [hnew', hnew, List.append_assoc]
  · intro e he
    rcases List.mem_append.mp he with he | he
    · exact hplain' e he
    · exact hplain e he

theorem SameLists.subscribers {s s' : Sys} (h : SameLists s s') (topic : CStr) :
    s'.subscribers topic = s.subscribers topic := congrArg (·.subscribersOf topic) h.topics

theorem ListsSound.congr {policy : Policy} {s s' : Sys} (h : ListsSound policy s)
    (hs : SameLists s s') : ListsSound policy s' := by
  obtain ⟨new, hnew, hplain⟩ := hs.log
  refine ⟨hs.topics ▸ h.nodup, ?_, ?_⟩
  · intro topic n hpos hn
    rw [hs.subscribers] at hn
    obtain ⟨c, hfd, hentry, hsince⟩ := h.member topic n hpos hn
    rw [hnew]
    exact ⟨c, (hs.fd c).trans hfd, (entryOf_append_of_plain hplain ..).trans hentry,
      hsince.append fun e he => concerns_of_plain (hplain e he) topic c⟩
  · rw [hnew]
    exact h.deliveries.append fun e he => served_of_plain (hplain e he)

/-- The points only see the lists and the descriptors of the clients. -/
theorem PointLists.congr {s s' : Sys} {p : Pc} (h : PointLists s p) (htopics : s'.topics = s.topics)
    (hfd : ∀ c, (s'.client c).fd = (s.client c).fd) : PointLists s' p := by
  have hsubs (topic : CStr) : s'.subscribers topic = s.subscribers topic :=
    congrArg (·.subscribersOf topic) htopics
  cases p with
  | publishing r origin topic message rest =>
    intro n hn
    rw [hsubs]
    exact h n hn
  | unsubscribe r c fd topic => exact ⟨by rw [hfd]; exact h.1, by rw [hfd]; exact h.2⟩
  | destroy c rest =>
    intro n hn hpos topic
    rw [hsubs]
    refine h n ?_ hpos topic
    rw [← hn]
    exact congrArg some (hfd c).symm
  | _ =>
    intro n hn hpos topic
    rw [hsubs]
    exact h n hn hpos topic

/-- The effects that touch no list. -/
def Effect.keepsLists : Effect → Bool
  | .addClient .. | .tearDown .. | .subscribe .. | .unsubscribe .. | .unsubscribeAll .. => false
  | .emit e => e.plain
  | _ => true

theorem sameLists_modifyClient (s : Sys) (c : ConnId) {f : Client → Client}
    (h : ∀ k, (f k).fd = k.fd) : SameLists s (s.modifyClient c f) :=
  ⟨rfl, fun d => s.client_modifyClient_eq c d (g := Client.fd) h, [], rfl, nofun⟩

theorem sameLists_apply (s : Sys) {e : Effect} (h : e.keepsLists = true) :
    SameLists s (s.apply e) := by
  cases e with
  | addClient c fd memory => cases h
  | tearDown c => cases h
  | subscribe origin c fd topic => cases h
  | unsubscribe c fd topic => cases h
  | unsubscribeAll fd => cases h
  | startSsl c => exact sameLists_modifyClient s c fun _ => rfl
  | authenticate c cn =>
    have hfd := (sameLists_modifyClient s c
      (f := fun k => { k with authStatus := .success, state := .idle }) fun _ => rfl).fd
    exact ⟨rfl, hfd, [_], rfl, by simp [Event.plain]⟩
  | receive c chunk => exact sameLists_modifyClient s c fun _ => rfl
  | consume c buffer => exact sameLists_modifyClient s c fun _ => rfl
  | copyName c cn => exact sameLists_modifyClient s (s.heir c) fun _ => rfl
  | mapName fd cn => exact ⟨rfl, fun c => by rw [client_mapName], [], rfl, nofun⟩
  | unregister fd => exact ⟨rfl, fun c => by rw [client_unregister], [], rfl, nofun⟩
  | store origin hostname key value =>
    exact ⟨rfl, fun _ => rfl, [_], rfl, by simp [Event.plain]⟩
  | emit e =>
    refine ⟨rfl, fun _ => rfl, [e], rfl, ?_⟩
    intro e' he'
    rw [List.mem_singleton.mp he']
    exact h
  | _ => exact ⟨rfl, fun _ => rfl, [], rfl, nofun⟩

theorem sameLists_applyAll (s : Sys) {effects : List Effect}
    (h : ∀ e ∈ effects, e.keepsLists = true) : SameLists s (s.applyAll effects) :=
  Sys.applyAll_induction (P := SameLists s)
    (fun s' e he hs => hs.trans (sameLists_apply s' (h e he))) (.refl s)

theorem Answers.keepsLists {s : Sys} {c : ConnId} {e : Effect} (h : Answers s c e) :
    e.keepsLists = true := by
  cases h <;> rfl

/-! ## Clients that come and go -/

/-- The lists do not notice when the descriptors of clients change that are in none of them. -/
theorem ListsSound.of_fd {policy : Policy} {s s' : Sys} (h : ListsSound policy s)
    (htopics : s'.topics = s.topics) (hlog : s'.log = s.log)
    (hfd : ∀ c topic, 0 < (s.client c).fd → (s.client c).fd ∈ s.subscribers topic →
      (s'.client c).fd = (s.client c).fd) : ListsSound policy s' := by
  refine ⟨htopics ▸ h.nodup, ?_, hlog ▸ h.deliveries⟩
  intro topic n hpos hn
  have hn' : n ∈ s.subscribers topic := by
    rw [Sys.subscribers, htopics] at hn
    exact hn
  obtain ⟨c, rfl, hentry, hsince⟩ := h.member topic n hpos hn'
  exact ⟨c, hfd c topic hpos hn', hlog ▸ hentry, hlog ▸ hsince⟩

theorem ListsSound.addClient {policy : Policy} {s : Sys} (h : ListsSound policy s) {c : ConnId}
    (hzero : (s.client c).fd = 0) (fd : Int) (memory : ClientMemory) :
    ListsSound policy (s.apply (.addClient c fd memory)) := by
  refine h.of_fd rfl rfl ?_
  intro d topic hpos _
  have hdc : d ≠ c := by
    rintro rfl
    exact absurd hzero hpos.ne'
  rw [client_addClient_of_ne s hdc]

theorem ListsSound.tearDown {policy : Policy} {s : Sys} (h : ListsSound policy s) {c : ConnId}
    (hgone : 0 < (s.client c).fd → ∀ topic, (s.client c).fd ∉ s.subscribers topic) :
    ListsSound policy (s.tearDown c) := by
  refine h.of_fd rfl rfl ?_
  intro d topic hpos hd
  have hdc : d ≠ c := by
    rintro rfl
    exact hgone hpos topic hd
  rw [client_tearDown_of_ne s hdc]

theorem PointLists.addClient {s : Sys} {t : Thread} {p : Pc} (h : PointLists s p)
    (howned : PointOwned s t p) {c : ConnId} (hzero : (s.client c).fd = 0) (fd : Int)
    (memory : ClientMemory) : PointLists (s.apply (.addClient c fd memory)) p := by
  cases p with
  | unsubscribe r d fd' topic =>
    have hdc : d ≠ c := by
      rintro rfl
      exact h.1 hzero
    have hd := client_addClient_of_ne s hdc fd memory
    exact ⟨by rw [hd]; exact h.1, by rw [hd]; exact h.2⟩
  | destroy d rest =>
    have hdc : d ≠ c := by
      rintro rfl
      exact howned.1 hzero
    intro n hn
    rw [Pc.closing, client_addClient_of_ne s hdc] at hn
    exact h n hn
  | _ => exact h

theorem PointLists.tearDown {s : Sys} {p : Pc} (h : PointLists s p) (c : ConnId) :
    PointLists (s.tearDown c) p := by
  have hfd := fd_tearDown_self s c
  cases p with
  | unsubscribe r d fd topic =>
    by_cases hdc : d = c
    · have hne := h.1
      rw [hdc] at hne
      refine ⟨?_, ?_⟩
      · rw [hdc, hfd]
        split <;> omega
      · intro hpos
        rw [hdc, hfd] at hpos
        split at hpos <;> omega
    · have hd := client_tearDown_of_ne s hdc
      exact ⟨by rw [hd]; exact h.1, by rw [hd]; exact h.2⟩
  | destroy d rest =>
    intro n hn hpos
    by_cases hdc : d = c
    · -- What was closed is no longer a descriptor.
      rw [Pc.closing, hdc, hfd] at hn
      have hn' := Option.some.inj hn
      split at hn' <;> omega
    · rw [Pc.closing, client_tearDown_of_ne s hdc] at hn
      exact h n hn hpos
  | _ => exact h

/-! ## Calls into `pubsub.c` -/

/-- Only the entry of a descriptor into a list says on whose behalf it is there. -/
theorem entryOf_append_of_ne {new : List Event} {topic : CStr} {fd : Int}
    (h : ∀ e ∈ new, ∀ c, e ≠ .entered c fd topic) (log : List Event) :
    entryOf topic fd (new ++ log) = entryOf topic fd log := by
  rw [entryOf, List.findSome?_append, List.findSome?_eq_none_iff.mpr, Option.none_or, entryOf]
  intro e he
  cases e with
  | entered c fd' topic' =>
    refine if_neg ?_
    rintro ⟨rfl, rfl⟩
    exact h _ he c rfl
  | _ => rfl

theorem entryOf_cons_of_ne {e : Event} {topic : CStr} {fd : Int} (h : ∀ c, e ≠ .entered c fd topic)
    (log : List Event) : entryOf topic fd (e :: log) = entryOf topic fd log := by
  have hnew : ∀ e' ∈ [e], ∀ c, e' ≠ .entered c fd topic := by simpa using h
  exact entryOf_append_of_ne hnew log

/-- A subscription of the connection itself, or any other one, leaves it subscribed. -/
theorem SubscribedSince.subscribe {policy : Policy} {log : List Event} {topic t : CStr}
    {c d : ConnId} {origin : Origin} {fd : Int} (hmay : origin.MaySubscribe policy c topic)
    (h : SubscribedSince policy log t d ∨ d = c ∧ t = topic) :
    SubscribedSince policy (.subscribed origin c fd topic :: log) t d := by
  by_cases hself : c = d ∧ topic = t
  · obtain ⟨rfl, rfl⟩ := hself
    refine ⟨origin, fd, List.find?_cons_of_pos ?_, hmay⟩
    simp [Event.concerns]
  · have hold : SubscribedSince policy log t d := by
      rcases h with h | ⟨rfl, rfl⟩
      · exact h
      · exact absurd ⟨rfl, rfl⟩ hself
    refine hold.cons ?_
    simpa [Event.concerns] using hself

theorem ListsSound.subscribe {policy : Policy} {s : Sys} (h : ListsSound policy s)
    {origin : Origin} {c : ConnId} {fd : Int} {topic : CStr}
    (hmay : origin.MaySubscribe policy c topic) (hlen : topic.length ≤ 63)
    (hopen : 0 < fd → (s.client c).fd = fd) :
    ListsSound policy (s.apply (.subscribe origin c fd topic)) := by
  have hentering {ev : Event} (hev : ev ∈ s.entering c fd topic) : ev = .entered c fd topic :=
    Sys.eq_entered_of_mem_entering hev
  have hlog : (s.apply (.subscribe origin c fd topic)).log =
      s.entering c fd topic ++ .subscribed origin c fd topic :: s.log := rfl
  refine ⟨h.nodup.pubsubSubscribe fd hlen, ?_, ?_⟩
  · intro t n hpos hn
    rw [hlog]
    by_cases hold : n ∈ s.subscribers t
    · obtain ⟨d, hfd, hentry, hsince⟩ := h.member t n hpos hold
      refine ⟨d, hfd, ?_, (SubscribedSince.subscribe hmay (Or.inl hsince)).append ?_⟩
      · -- A descriptor that is in the list does not enter it.
        rw [← hentry, ← List.singleton_append, ← List.append_assoc]
        refine entryOf_append_of_ne ?_ _
        intro e he d' hd'
        rcases List.mem_append.mp he with he | he
        · rw [Sys.entering] at he
          split at he
          next hnew =>
            rw [List.mem_singleton.mp he] at hd'
            obtain ⟨-, rfl, rfl⟩ := Event.entered.inj hd'
            exact hnew.1 hold
          · exact absurd he List.not_mem_nil
        · rw [List.mem_singleton.mp he] at hd'
          cases hd'
      · intro e he
        rw [hentering he]
        rfl
    · obtain ⟨rfl, rfl⟩ := (PubSub.mem_pubsubSubscribe hlen hn).resolve_left hold
      refine ⟨c, hopen hpos, ?_, (SubscribedSince.subscribe hmay (Or.inr ⟨rfl, rfl⟩)).append ?_⟩
      · rw [Sys.entering, if_pos ⟨hold, hn⟩]
        simp [entryOf]
      · intro e he
        rw [hentering he]
        rfl
  · rw [hlog, ← List.singleton_append, ← List.append_assoc]
    refine h.deliveries.append ?_
    intro e he older
    rintro origin' c' topic' text rfl
    rcases List.mem_append.mp he with he | he
    · cases hentering he
    · cases List.mem_singleton.mp he

/-- Lists that only lose members stay accounted for, when the log says nothing about those
who stay. -/
theorem ListsSound.shrink {policy : Policy} {s : Sys} (h : ListsSound policy s) {p : PubSub}
    {e : Event} (hnodup : p.ListsNodup)
    (hmem : ∀ topic n, n ∈ p.subscribersOf topic → n ∈ s.subscribers topic)
    (hentered : ∀ c fd topic, e ≠ .entered c fd topic)
    (hdelivered : ∀ origin c topic text, e ≠ .delivered origin c topic text)
    (hstay : ∀ topic c, 0 < (s.client c).fd → (s.client c).fd ∈ p.subscribersOf topic →
      e.concerns topic c = false) :
    ListsSound policy ({ s with topics := p }.emit e) := by
  refine ⟨hnodup, ?_, ?_⟩
  · intro topic n hpos hn
    obtain ⟨c, rfl, hentry, hsince⟩ := h.member topic n hpos (hmem topic n hn)
    exact ⟨c, rfl, (entryOf_cons_of_ne (fun d => hentered d _ topic) _).trans hentry,
      hsince.cons (hstay topic c hpos hn)⟩
  · exact ⟨fun origin c topic text he => absurd he (hdelivered origin c topic text), h.deliveries⟩

theorem ListsSound.unsubscribe {policy : Policy} {s : Sys} (h : ListsSound policy s) {c : ConnId}
    {fd : Int} (hopen : 0 < (s.client c).fd → (s.client c).fd = fd) (topic : CStr) :
    ListsSound policy (s.apply (.unsubscribe c fd topic)) := by
  refine h.shrink (h.nodup.pubsubUnsubscribe fd topic)
    (fun t n hn => PubSub.mem_of_mem_pubsubUnsubscribe hn) nofun nofun ?_
  intro t d hpos hd
  rw [Event.concerns, decide_eq_false_iff_not]
  rintro ⟨rfl, rfl⟩
  rw [hopen hpos] at hd
  exact h.nodup.notMem_pubsubUnsubscribe fd topic hd

theorem ListsSound.unsubscribeAll {policy : Policy} {s : Sys} (h : ListsSound policy s)
    (hs : Owned s) (fd : Int) : ListsSound policy (s.apply (.unsubscribeAll fd)) := by
  refine h.shrink (h.nodup.pubsubUnsubscribeAll fd)
    (fun t n hn => PubSub.mem_of_mem_pubsubUnsubscribeAll hn) nofun nofun ?_
  intro t d hpos hd
  rw [Event.concerns, decide_eq_false_iff_not]
  intro howner
  rw [hs.single _ _ d (hs.owner d hpos) howner] at hd
  exact h.nodup.notMem_pubsubUnsubscribeAll fd t hd

/-- A delivery to a client that subscribed. -/
theorem ListsSound.deliver {policy : Policy} {s : Sys} (h : ListsSound policy s) {origin : Origin}
    {c : ConnId} {topic text : CStr}
    (hserved : ∃ by' fd,
      Event.subscribed by' c fd topic ∈ s.log ∧ by'.MaySubscribe policy c topic) :
    ListsSound policy (s.apply (.emit (.delivered origin c topic text))) := by
  refine ⟨h.nodup, ?_, ?_, h.deliveries⟩
  · intro t n hpos hn
    obtain ⟨d, hfd, hentry, hsince⟩ := h.member t n hpos hn
    have hlog : entryOf t n (.delivered origin c topic text :: s.log) = entryOf t n s.log :=
      entryOf_cons_of_ne (fun _ he => Event.noConfusion he) _
    exact ⟨d, hfd, hlog.trans hentry, hsince.cons rfl⟩
  · intro origin' c' topic' text' he
    obtain ⟨-, rfl, rfl, -⟩ := Event.delivered.inj he
    exact hserved

/-- The points outside of `pubsub_publish`, while lists change and clients do not. -/
theorem PointLists.of_lists {s s' : Sys} {p : Pc} (h : PointLists s p)
    (hfree : p.holdsPubsub = false) (hclient : s'.client = s.client)
    (hsub : ∀ topic n, 0 < n → p.closing s = some n → n ∈ s'.subscribers topic →
      n ∈ s.subscribers topic) : PointLists s' p := by
  cases p with
  | publishing r origin topic message rest => cases hfree
  | unsubscribe r c fd topic =>
    rw [PointLists, hclient]
    exact h
  | destroy c rest =>
    intro n hn hpos topic hmem
    rw [Pc.closing, hclient] at hn
    exact h n hn hpos topic (hsub topic n hpos hn hmem)
  | _ =>
    intro n hn hpos topic hmem
    exact h n hn hpos topic (hsub topic n hpos hn hmem)

/-! ## Steps -/

/-- A step, put together from lists that are sound, the effects that touch none of them, and
the next point. -/
theorem SubscribersSys.finish {policy : Policy} {s : Sys} {t : Thread} {p : Pc}
    {effects : List Effect} (hs : ListsSound policy s)
    (hothers : ∀ u, u ≠ t → PointLists s (s.pc u)) (hp : PointLists s p)
    (heffects : ∀ e ∈ effects, e.keepsLists = true) :
    SubscribersSys policy ((s.applyAll effects).goto t p) := by
  have hsame : SameLists s ((s.applyAll effects).goto t p) :=
    (sameLists_applyAll s heffects).trans ⟨rfl, fun _ => rfl, [], rfl, nofun⟩
  refine ⟨hs.congr hsame, ?_⟩
  refine Sys.forall_pc_goto (P := fun _ q => PointLists _ q) (Sys.pc_applyAll s effects)
    (hp.congr hsame.topics hsame.fd) ?_
  intro u hu
  exact (hothers u hu).congr hsame.topics hsame.fd

theorem SubscribersSys.quiet {policy : Policy} {s : Sys} (h : SubscribersSys policy s) {t : Thread}
    {p : Pc} {effects : List Effect} (hp : PointLists s p)
    (heffects : ∀ e ∈ effects, e.keepsLists = true) :
    SubscribersSys policy ((s.applyAll effects).goto t p) :=
  .finish h.shared (fun u _ => h.points u) hp heffects

/-- A descriptor in no list. -/
def Sys.Unsubscribed (s : Sys) (fd : Int) : Prop :=
  ∀ topic ∈ s.topics.topics.live, fd ∉ topic.subscribers.live

theorem Sys.Unsubscribed.notMem {s : Sys} {fd : Int} (h : s.Unsubscribed fd) (topic : CStr) :
    fd ∉ s.subscribers topic := by
  rw [Sys.subscribers, PubSub.subscribersOf]
  split
  · exact List.not_mem_nil
  next u hu => exact h u (List.mem_of_find?_eq_some hu)

/-- Subscriptions are made for clients that are still open and not being removed. -/
def Sys.SubscribesOpen (s : Sys) (a : Act) : Prop :=
  match s.pc a.thread with
  | .subscribe _ _ c fd _ =>
    0 < fd → (s.client c).fd = fd ∧ ∀ t, (s.pc t).closing s ≠ some fd
  | _ => True

/-- Handshakes fail only for descriptors in no list. -/
def Sys.FailsUnsubscribed (s : Sys) (a : Act) : Prop :=
  match s.pc a.thread, a.input with
  | .locked r c, .sslError => (s.client c).authStatus = .pending → s.Unsubscribed r.fd
  | .locked r c, .badCertificate => (s.client c).authStatus = .pending → s.Unsubscribed r.fd
  | _, _ => True

/-- A step that respects the connections behind the descriptors. -/
structure Sys.Orderly (s : Sys) (a : Act) : Prop where
  subscribes : s.SubscribesOpen a
  fails : s.FailsUnsubscribed a
  name : a.NamePlain

theorem Sys.FailsUnsubscribed.unsubscribed {s : Sys} {a : Act} (h : s.FailsUnsubscribed a) {r : Ref}
    {c : ConnId} (hin : a.input = .sslError ∨ a.input = .badCertificate)
    (hpc : s.pc a.thread = .locked r c) (hauth : (s.client c).authStatus = .pending) :
    s.Unsubscribed r.fd := by
  rw [Sys.FailsUnsubscribed, hpc] at h
  rcases hin with hin | hin
  all_goals
    rw [hin] at h
    exact h hauth

/-- What every orderly run keeps. -/
structure Consistent (policy : Policy) (s : Sys) : Prop where
  owned : OwnedSys s
  authorised : AuthorisedSys policy s
  lists : SubscribersSys policy s

variable {policy : Policy} {s : Sys}

/-- The client found under a descriptor of a list is the one that subscribed. -/
theorem Consistent.served (h : Consistent policy s) {topic : CStr} {n : Int} {c : ConnId}
    (hn : n ∈ s.subscribers topic) (hget : s.byFd n = some c) :
    ∃ by' fd, Event.subscribed by' c fd topic ∈ s.log ∧ by'.MaySubscribe policy c topic := by
  obtain ⟨hfd, hpos⟩ := h.owned.shared.entry n c hget
  obtain ⟨d, hd, -, by', fd, hfind, hmay⟩ := h.lists.shared.member topic n hpos hn
  obtain rfl := h.owned.shared.eq_of_fd hd hfd hpos
  exact ⟨by', fd, List.mem_of_find?_eq_some hfind, hmay⟩

/-- While nobody publishes, the points of the others depend on no list as a whole. -/
theorem Consistent.points_of_lists (h : Consistent policy s) (s' : Sys)
    (hfree : ¬ s.PubsubLocked) (hpc : s'.pc = s.pc) (hclient : s'.client = s.client)
    (hsub : ∀ t topic n, 0 < n → (s.pc t).closing s = some n → n ∈ s'.subscribers topic →
      n ∈ s.subscribers topic) (t : Thread) : PointLists s' (s'.pc t) := by
  have hpoint : (s.pc t).holdsPubsub = false := by
    rw [← Bool.not_eq_true]
    exact fun hheld => hfree ⟨t, hheld⟩
  rw [hpc]
  exact (h.lists.points t).of_lists hpoint hclient (hsub t)

/-- `pubsub_subscribe`, in an orderly step. -/
theorem Consistent.subscribe (h : Consistent policy s) {t : Thread} {r : Option Ref}
    {origin : Origin} {c : ConnId} {fd : Int} {topic : CStr} {p : Pc} {effects : List Effect}
    (hpc : s.pc t = .subscribe r origin c fd topic) (hfree : ¬ s.PubsubLocked)
    (hopen : 0 < fd → (s.client c).fd = fd ∧ ∀ t, (s.pc t).closing s ≠ some fd)
    (hp : ∀ s', PointLists s' p) (heffects : ∀ e ∈ effects, e.keepsLists = true) :
    SubscribersSys policy
      ((s.applyAll (.subscribe origin c fd topic :: effects)).goto t p) := by
  have hpoint := h.authorised.points t
  rw [hpc] at hpoint
  obtain ⟨hmay, hlen⟩ := hpoint
  rw [Sys.applyAll_cons]
  refine .finish (h.lists.shared.subscribe hmay hlen fun hpos => (hopen hpos).1)
    (fun u _ => h.points_of_lists (s.apply (.subscribe origin c fd topic)) hfree rfl rfl
      (fun t' topic' n hpos hclosing hn => ?_) u) (hp _) heffects
  -- The only descriptor that can be new is not being closed.
  rcases PubSub.mem_pubsubSubscribe hlen hn with hold | ⟨rfl, -⟩
  · exact hold
  · exact absurd hclosing ((hopen hpos).2 t')

/-- `pubsub_unsubscribe`. -/
theorem Consistent.unsubscribe (h : Consistent policy s) {t : Thread} {r : Option Ref}
    {c : ConnId} {fd : Int} {topic : CStr} {p : Pc} {effects : List Effect}
    (hpc : s.pc t = .unsubscribe r c fd topic) (hfree : ¬ s.PubsubLocked)
    (hp : ∀ s', PointLists s' p) (heffects : ∀ e ∈ effects, e.keepsLists = true) :
    SubscribersSys policy ((s.applyAll (.unsubscribe c fd topic :: effects)).goto t p) := by
  have hpoint := h.lists.points t
  rw [hpc] at hpoint
  rw [Sys.applyAll_cons]
  exact .finish (h.lists.shared.unsubscribe hpoint.2 topic)
    (fun u _ => h.points_of_lists (s.apply (.unsubscribe c fd topic)) hfree rfl rfl
      (fun _ _ _ _ _ hn => PubSub.mem_of_mem_pubsubUnsubscribe hn) u) (hp _) heffects

/-- Every orderly step keeps the lists accounted for. -/
theorem Consistent.lists_step (h : Consistent policy s) {s' : Sys} {a : Act} (hok : s.Orderly a)
    (hs : s.step a = some s') : SubscribersSys policy s' := by
  obtain ⟨effects, next, hmove, rfl⟩ := Sys.exists_move_of_step hs
  have hpoint := h.lists.points a.thread
  have howned := h.owned.points a.thread
  cases hmove with
  | add hin hpc hread hmemory =>
    rw [hpc] at howned
    have hzero := howned.2.2.2.1
    rw [Sys.applyAll_cons]
    exact .finish (h.lists.shared.addClient hzero _ _)
      (fun u _ => (h.lists.points u).addClient (h.owned.points u) hzero _ _) nofun nofun
  | handshakeFailed hin hpc hauth =>
    have hnone := hok.fails.unsubscribed hin hpc hauth
    refine h.lists.quiet ?_ (List.all_eq_true.mp rfl)
    intro n hn _ topic
    rw [← Option.some.inj hn]
    exact hnone.notMem topic
  | answered hpc hbuf heffects =>
    refine h.lists.quiet nofun ?_
    intro e he
    rcases List.mem_cons.mp he with rfl | he
    · rfl
    · exact (heffects e he).keepsLists
  | lineUnsubscribe hpc hline hcan =>
    have hpos := h.owned.open_of_holds (t := a.thread) (by rw [hpc]; rfl)
    exact h.lists.quiet ⟨hpos.ne', fun _ => rfl⟩ (List.all_eq_true.mp rfl)
  | subscribe hpc hfree =>
    have hopen := hok.subscribes
    rw [Sys.SubscribesOpen, hpc] at hopen
    exact h.subscribe hpc hfree hopen (fun _ => nofun) (List.all_eq_true.mp rfl)
  | cliSubscribe hpc hfree =>
    have hopen := hok.subscribes
    rw [Sys.SubscribesOpen, hpc] at hopen
    exact h.subscribe hpc hfree hopen (fun _ => nofun) nofun
  | unsubscribe hpc hfree =>
    exact h.unsubscribe hpc hfree (fun _ => nofun) (List.all_eq_true.mp rfl)
  | cliUnsubscribe hpc hfree => exact h.unsubscribe hpc hfree (fun _ => nofun) nofun
  | publish hpc hfree => exact h.lists.quiet (fun n hn => hn) nofun
  | skip hpc =>
    rw [hpc] at hpoint
    exact h.lists.quiet (fun n hn => hpoint n (List.mem_cons_of_mem _ hn)) nofun
  | deliver hpc hget hfree =>
    rw [hpc] at hpoint
    have hserved := h.served (hpoint _ List.mem_cons_self) hget
    rw [Sys.applyAll_cons]
    refine .finish (h.lists.shared.deliver hserved) ?_ ?_ nofun
    · intro u _
      exact (h.lists.points u).congr rfl fun _ => rfl
    · intro n hn
      exact hpoint n (List.mem_cons_of_mem _ hn)
  | @unsubscribeAll fd rest hpc hfree =>
    rw [Sys.applyAll_cons]
    refine .finish (h.lists.shared.unsubscribeAll h.owned.shared fd)
      (fun u _ => h.points_of_lists (s.apply (.unsubscribeAll fd)) hfree rfl rfl
        (fun _ _ _ _ _ hn => PubSub.mem_of_mem_pubsubUnsubscribeAll hn) u)
      ?_ nofun
    intro n hn _ topic
    rw [← Option.some.inj hn]
    exact h.lists.shared.nodup.notMem_pubsubUnsubscribeAll fd topic
  | unregister hpc hread hget =>
    rw [hpc] at hpoint
    refine h.lists.quiet ?_ (List.all_eq_true.mp rfl)
    intro n hn
    rw [Pc.closing, (h.owned.shared.entry _ _ hget).1] at hn
    exact hpoint n hn
  | destroy hpc hfree =>
    rw [hpc] at hpoint
    rw [Sys.applyAll_cons]
    exact .finish (h.lists.shared.tearDown (hpoint _ rfl))
      (fun u _ => (h.lists.points u).tearDown _) nofun nofun
  | cliFoundUnsubscribe ht hpc hget hfree =>
    exact h.lists.quiet ⟨h.owned.shared.fd_ne_zero_of_byHostname hget, fun _ => rfl⟩ nofun
  | _ => exact h.lists.quiet nofun (List.all_eq_true.mp rfl)

end AdMQ
