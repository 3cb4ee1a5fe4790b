import AdMQ.Broker.PubSub.Table
import AdMQ.Core.OrderedSet

/-!
# The topic table as a map of ordered sets

What the topic table is for: every topic has an ordered set of subscribers, and
only the operations that concern a topic change its set. Within the capacity of
the arrays the table of `pubsub.c` represents exactly this map after every
sequence of calls, so a publication goes to the descriptors whose last operation
was a subscription, in the order of their latest effective subscriptions.
-/

namespace AdMQ

open Core

/-- A call into `pubsub.c`. -/
inductive PubSubOp where
  | subscribe (clientFd : Int) (topicName : CStr)
  | unsubscribe (clientFd : Int) (topicName : CStr)
  | unsubscribeAll (clientFd : Int)
  | publish (topicName message : CStr)
  deriving DecidableEq

/-- The effect of a call on the table. -/
def PubSub.step (p : PubSub) : PubSubOp → PubSub
  | .subscribe clientFd topicName => pubsubSubscribe p clientFd topicName
  | .unsubscribe clientFd topicName => pubsubUnsubscribe p clientFd topicName
  | .unsubscribeAll clientFd => pubsubUnsubscribeAll p clientFd
  | .publish _ _ => p

/-- The table after a sequence of calls. -/
def PubSub.run (p : PubSub) (ops : List PubSubOp) : PubSub := ops.foldl PubSub.step p

/-- What a call means for the ordered set of one topic. -/
def PubSubOp.setOp? (topicName : CStr) : PubSubOp → Option (SetOp Int)
  | .subscribe clientFd t => if t = topicName then some (.add clientFd) else none
  | .unsubscribe clientFd t => if t = topicName then some (.remove clientFd) else none
  | .unsubscribeAll clientFd => some (.remove clientFd)
  | .publish _ _ => none

/-- The operations of a sequence that concern a topic. -/
def topicHistory (topicName : CStr) (ops : List PubSubOp) : List (SetOp Int) :=
  ops.filterMap (PubSubOp.setOp? topicName)

/-- A call concerns the membership of a descriptor in a topic. -/
def PubSubOp.Concerns (op : PubSubOp) (topicName : CStr) (clientFd : Int) : Prop :=
  ∃ s, op.setOp? topicName = some s ∧ s.elem = clientFd

/-- The topic that a call opens if it does not exist. -/
def PubSubOp.opened? : PubSubOp → Option CStr
  | .subscribe _ topicName => some topicName
  | _ => none

/-- The distinct topics ever subscribed to. -/
def openedTopics (ops : List PubSubOp) : List CStr := (ops.filterMap PubSubOp.opened?).dedup

/-- A sequence of calls that the arrays can hold. -/
structure WithinCapacity (ops : List PubSubOp) : Prop where
  /-- Topic names fit their field. -/
  names : ∀ t ∈ openedTopics ops, t.length ≤ 63
  /-- The table has room for every topic. -/
  topics : (openedTopics ops).length ≤ 50
  /-- At every moment every topic has room for its subscribers. -/
  subscribers : ∀ n t, (SetOp.present (topicHistory t (ops.take n))).length ≤ 100

/-! ## Capacity of shorter sequences -/

theorem openedTopics_subset_append (ops more : List PubSubOp) :
    openedTopics ops ⊆ openedTopics (ops ++ more) := by
  intro t ht
  simp only [openedTopics, List.mem_dedup, List.filterMap_append, List.mem_append] at ht ⊢
  exact Or.inl ht

theorem openedTopics_concat_of_none (ops : List PubSubOp) (op : PubSubOp) (h : op.opened? = none) :
    openedTopics (ops ++ [op]) = openedTopics ops := by
  rw [openedTopics, List.filterMap_append, List.filterMap_cons_none h, List.filterMap_nil,
    List.append_nil, openedTopics]

theorem WithinCapacity.of_append {ops more : List PubSubOp} (h : WithinCapacity (ops ++ more)) :
    WithinCapacity ops := by
  have hsub := openedTopics_subset_append ops more
  refine ⟨fun t ht => h.names t (hsub ht), ?_, ?_⟩
  · exact Nat.le_trans (List.subperm_of_subset (List.nodup_dedup _) hsub).length_le h.topics
  · intro n t
    have hn := h.subscribers (min n ops.length) t
    rw [List.take_append_of_le_length (Nat.min_le_right ..)] at hn
    rwa [List.take_eq_take_min]

/-- Short sequences on short names always fit. -/
theorem withinCapacity_of_short {ops : List PubSubOp} (hlen : ops.length ≤ 50)
    (hnames : ∀ t ∈ openedTopics ops, t.length ≤ 63) : WithinCapacity ops := by
  refine ⟨hnames, ?_, ?_⟩
  · calc (openedTopics ops).length ≤ (ops.filterMap PubSubOp.opened?).length :=
          (List.dedup_sublist _).length_le
      _ ≤ ops.length := List.length_filterMap_le ..
      _ ≤ 50 := hlen
  · intro n t
    calc (SetOp.present (topicHistory t (ops.take n))).length
          ≤ (topicHistory t (ops.take n)).length := SetOp.length_present_le _
      _ ≤ (ops.take n).length := List.length_filterMap_le ..
      _ ≤ ops.length := (List.take_sublist ..).length_le
      _ ≤ 100 := by omega

/-! ## One call -/

/-- The table represents the map of ordered sets that a sequence of calls describes. -/
structure Represents (p : PubSub) (ops : List PubSubOp) : Prop where
  /-- No two topics share a name. -/
  names_nodup : (p.topics.live.map Topic.name).Nodup
  /-- Every topic has been subscribed to. -/
  names_opened : ∀ t ∈ p.topics.live.map Topic.name, t ∈ openedTopics ops
  /-- Every topic has the subscribers of its ordered set, in order. -/
  subscribers : ∀ t, p.subscribersOf t = SetOp.replay (topicHistory t ops)

theorem topicHistory_concat (t : CStr) (ops : List PubSubOp) (op : PubSubOp) :
    topicHistory t (ops ++ [op]) = topicHistory t ops ++ (op.setOp? t).toList := by
  cases h : op.setOp? t <;> simp [topicHistory, h]

/-- The set of a topic after one more call. -/
theorem replay_topicHistory_concat (t : CStr) (ops : List PubSubOp) (op : PubSubOp) :
    SetOp.replay (topicHistory t (ops ++ [op])) =
      match op.setOp? t with
      | none => SetOp.replay (topicHistory t ops)
      | some s => SetOp.apply (SetOp.replay (topicHistory t ops)) s := by
  rw [topicHistory_concat]
  cases op.setOp? t with
  | none => simp
  | some s => exact SetOp.replay_concat ..

/-- Rewriting one topic under its name keeps the names of the table. -/
theorem PubSub.names_modifyTopic {p : PubSub} {i : Nat} {t : Topic}
    (ht : p.topics.live[i]? = some t) {f : Topic → Topic} (hf : (f t).name = t.name) :
    (p.modifyTopic i f).topics.live.map Topic.name = p.topics.live.map Topic.name := by
  rw [PubSub.live_modifyTopic ht, List.map_set, hf]
  obtain ⟨hlt, rfl⟩ := List.getElem?_eq_some_iff.mp ht
  have hname : p.topics.live[i].name =
      (p.topics.live.map Topic.name).get ⟨i, by simpa using hlt⟩ := by simp
  rw [hname]
  exact List.set_getElem_self _

/-- A topic is always found after it was opened, and opening changes no subscriber list. -/
theorem PubSub.openTopic_spec (p : PubSub) {topicName : CStr} (hlen : topicName.length ≤ 63)
    (hroom : topicName ∉ p.topics.live.map Topic.name → p.topics.count < maxTopics) :
    ∃ q i, p.openTopic topicName = (q, some i) ∧ q.findTopic topicName = some i ∧
      (q = p ∨ topicName ∉ p.topics.live.map Topic.name ∧
        q.topics.live.map Topic.name = p.topics.live.map Topic.name ++ [topicName]) ∧
      ∀ other, q.subscribersOf other = p.subscribersOf other := by
  cases hf : p.findTopic topicName with
  | some i => exact ⟨p, i, by rw [PubSub.openTopic, hf], hf, Or.inl rfl, fun _ => rfl⟩
  | none =>
    have hnot := PubSub.findTopic_eq_none_iff.mp hf
    have hlt := hroom hnot
    let slot := p.topics.slots.get ⟨p.topics.count, by rw [p.topics.length_slots]; exact hlt⟩
    let q : PubSub := ⟨p.topics.push (slot.reopen topicName) hlt⟩
    have hlive : q.topics.live = p.topics.live ++ [slot.reopen topicName] := Slots.live_push ..
    have hname : (slot.reopen topicName).name = topicName := List.take_of_length_le hlen
    have hsubs : (slot.reopen topicName).subscribers.live = [] := Slots.live_clear _
    refine ⟨q, p.topics.count, ?_, ?_, Or.inr ⟨hnot, ?_⟩, ?_⟩
    · simp only [PubSub.openTopic, hf, dif_pos hlt]
      rfl
    · rw [PubSub.findTopic, hlive, List.findIdx?_append]
      rw [PubSub.findTopic] at hf
      simp [hf, hname]
    · rw [hlive, List.map_append, List.map_singleton, hname]
    · intro other
      rw [PubSub.subscribersOf, PubSub.subscribersOf, hlive, List.find?_append]
      cases p.topics.live.find? (fun t => t.name == other) with
      | some t => rfl
      | none =>
        rw [Option.none_or, List.find?_singleton]
        split <;> simp_all

/-- The topic that a subscription rewrites, if there is a slot for it. -/
theorem PubSub.pubsubSubscribe_spec (p : PubSub) (fd : Int) {topicName : CStr}
    (hlen : topicName.length ≤ 63)
    (hroom : topicName ∉ p.topics.live.map Topic.name → p.topics.count < maxTopics) :
    ∃ t : Topic, t.subscribers.live = p.subscribersOf topicName ∧
      (pubsubSubscribe p fd topicName).topics.live.map Topic.name =
        (if topicName ∈ p.topics.live.map Topic.name then p.topics.live.map Topic.name
        else p.topics.live.map Topic.name ++ [topicName]) ∧
      ∀ other, (pubsubSubscribe p fd topicName).subscribersOf other =
        if other = topicName then (t.addSubscriber fd).subscribers.live
        else p.subscribersOf other := by
  obtain ⟨q, i, hopen, hfind, hnames, hsubs⟩ := p.openTopic_spec hlen hroom
  obtain ⟨t, ht, -⟩ := PubSub.getElem?_of_findTopic hfind
  have hstep : pubsubSubscribe p fd topicName = q.modifyTopic i (·.addSubscriber fd) := by
    rw [pubsubSubscribe, hopen]
  refine ⟨t, ?_, ?_, ?_⟩
  · rw [← PubSub.subscribersOf_of_findTopic hfind ht, hsubs]
  · rw [hstep, PubSub.names_modifyTopic ht (t.name_addSubscriber fd)]
    rcases hnames with rfl | ⟨hnot, hnames⟩
    · have hmem : topicName ∈ q.topics.live.map Topic.name := by
        by_contra hnot
        rw [PubSub.findTopic_eq_none_iff.mpr hnot] at hfind
        cases hfind
      rw [if_pos hmem]
    · rw [if_neg hnot, hnames]
  · intro other
    rw [hstep, PubSub.subscribersOf_modifyTopic hfind ht (t.name_addSubscriber fd), hsubs]

/-- A removal closes no topic. -/
theorem PubSub.names_pubsubUnsubscribe (p : PubSub) (fd : Int) (topicName : CStr) :
    (pubsubUnsubscribe p fd topicName).topics.live.map Topic.name =
      p.topics.live.map Topic.name := by
  rw [pubsubUnsubscribe]
  split
  · rfl
  next i hfind =>
    obtain ⟨t, ht, -⟩ := PubSub.getElem?_of_findTopic hfind
    exact PubSub.names_modifyTopic ht (t.name_dropSubscriber fd)

theorem PubSub.names_pubsubUnsubscribeAll (p : PubSub) (fd : Int) :
    (pubsubUnsubscribeAll p fd).topics.live.map Topic.name = p.topics.live.map Topic.name := by
  rw [pubsubUnsubscribeAll, PubSub.live_foldl_modifyTopic, List.map_map]
  exact List.map_congr_left fun t _ => t.name_dropSubscriber fd

/-- A subscription represents the same call on the map. -/
theorem Represents.subscribe {p : PubSub} {ops : List PubSubOp} (h : Represents p ops)
    {fd : Int} {topicName : CStr} (hcap : WithinCapacity (ops ++ [.subscribe fd topicName])) :
    Represents (pubsubSubscribe p fd topicName) (ops ++ [.subscribe fd topicName]) := by
  have hopened : topicName ∈ openedTopics (ops ++ [.subscribe fd topicName]) := by
    simp [openedTopics, PubSubOp.opened?]
  have hsub := openedTopics_subset_append ops [.subscribe fd topicName]
  have hroom : topicName ∉ p.topics.live.map Topic.name → p.topics.count < maxTopics := by
    -- The names in the table and the new one are distinct opened topics.
    intro hnot
    have hle := (List.subperm_of_subset (List.nodup_cons.mpr ⟨hnot, h.names_nodup⟩)
      (List.cons_subset.mpr ⟨hopened, fun t ht => hsub (h.names_opened t ht)⟩)).length_le
    have htop := hcap.topics
    simp only [List.length_cons, List.length_map, Slots.length_live] at hle
    change p.topics.count < 50
    omega
  obtain ⟨t, ht, hnames, hsubs⟩ := p.pubsubSubscribe_spec fd (hcap.names topicName hopened) hroom
  have hlive : t.subscribers.live = SetOp.replay (topicHistory topicName ops) := by
    rw [ht, h.subscribers]
  refine ⟨?_, ?_, ?_⟩
  · rw [hnames]
    split
    · exact h.names_nodup
    next hnot => exact List.nodup_append_comm.mp (List.nodup_cons.mpr ⟨hnot, h.names_nodup⟩)
  · intro u hu
    rw [hnames] at hu
    split at hu
    · exact hsub (h.names_opened u hu)
    · rcases List.mem_append.mp hu with hu | hu
      · exact hsub (h.names_opened u hu)
      · rwa [List.mem_singleton.mp hu]
  · intro other
    rw [hsubs, replay_topicHistory_concat]
    by_cases ho : other = topicName
    · subst ho
      simp only [PubSubOp.setOp?, ite_true]
      by_cases hm : fd ∈ t.subscribers.live
      · rw [Topic.addSubscriber_of_mem hm, ← hlive, SetOp.apply_add_of_mem hm]
      · have hlt : t.subscribers.count < maxSubscribersPerTopic := by
          have hmax := hcap.subscribers (ops.length + 1) other
          rw [List.take_of_length_le (by simp)] at hmax
          have hlen := SetOp.length_replay_le (topicHistory other (ops ++ [.subscribe fd other]))
          rw [replay_topicHistory_concat] at hlen
          simp only [PubSubOp.setOp?, ite_true] at hlen
          rw [← hlive, SetOp.apply_add_of_notMem hm, List.length_append, Slots.length_live,
            List.length_singleton] at hlen
          change t.subscribers.count < 100
          omega
        rw [Topic.live_addSubscriber hm hlt, ← hlive, SetOp.apply_add_of_notMem hm]
    · have hne : ¬ topicName = other := Ne.symm ho
      rw [if_neg ho, h.subscribers]
      simp [PubSubOp.setOp?, hne]

/-- The subscribers of every topic after a descriptor was removed from one. -/
theorem PubSub.subscribersOf_pubsubUnsubscribe (p : PubSub) (fd : Int) (topicName t : CStr) :
    (pubsubUnsubscribe p fd topicName).subscribersOf t =
      if t = topicName then (p.subscribersOf t).erase fd else p.subscribersOf t := by
  cases hf : p.findTopic topicName with
  | none =>
    simp only [pubsubUnsubscribe, hf]
    split
    next ht =>
      -- Without such a topic there is nothing to erase.
      rw [ht, PubSub.subscribersOf_of_not_mem (PubSub.findTopic_eq_none_iff.mp hf)]
      rfl
    next => rfl
  | some i =>
    obtain ⟨u, hu, -⟩ := PubSub.getElem?_of_findTopic hf
    rw [pubsubUnsubscribe, hf]
    rw [PubSub.subscribersOf_modifyTopic hf hu (u.name_dropSubscriber fd)]
    split
    next ht => rw [ht, Topic.live_dropSubscriber, PubSub.subscribersOf_of_findTopic hf hu]
    next => rfl

/-- A removal from one topic represents the same call on the map. -/
theorem Represents.unsubscribe {p : PubSub} {ops : List PubSubOp} (h : Represents p ops)
    (fd : Int) (topicName : CStr) :
    Represents (pubsubUnsubscribe p fd topicName) (ops ++ [.unsubscribe fd topicName]) := by
  have hopened := openedTopics_concat_of_none ops (.unsubscribe fd topicName) rfl
  have hnames := p.names_pubsubUnsubscribe fd topicName
  refine ⟨by rw [hnames]; exact h.names_nodup, by rw [hnames, hopened]; exact h.names_opened, ?_⟩
  intro other
  rw [PubSub.subscribersOf_pubsubUnsubscribe, replay_topicHistory_concat, h.subscribers]
  by_cases ho : other = topicName
  · subst ho
    simp only [PubSubOp.setOp?, ite_true]
    rfl
  · have hne : ¬ topicName = other := Ne.symm ho
    simp [PubSubOp.setOp?, ho, hne]

/-- The subscribers of every topic after a descriptor was removed from all of them. -/
theorem subscribersOf_pubsubUnsubscribeAll (p : PubSub) (fd : Int) (topicName : CStr) :
    (pubsubUnsubscribeAll p fd).subscribersOf topicName = (p.subscribersOf topicName).erase fd := by
  rw [PubSub.subscribersOf, pubsubUnsubscribeAll, PubSub.live_foldl_modifyTopic, List.find?_map]
  have hcomp : ((fun t : Topic => t.name == topicName) ∘ fun t : Topic => t.dropSubscriber fd) =
      fun t : Topic => t.name == topicName := by
    funext t
    simp
  rw [hcomp, PubSub.subscribersOf]
  cases p.topics.live.find? (fun t => t.name == topicName) with
  | none => rfl
  | some t => exact t.live_dropSubscriber fd

/-- A removal from all topics represents the same call on the map. -/
theorem Represents.unsubscribeAll {p : PubSub} {ops : List PubSubOp} (h : Represents p ops)
    (fd : Int) : Represents (pubsubUnsubscribeAll p fd) (ops ++ [.unsubscribeAll fd]) := by
  have hopened := openedTopics_concat_of_none ops (.unsubscribeAll fd) rfl
  have hnames := p.names_pubsubUnsubscribeAll fd
  refine ⟨by rw [hnames]; exact h.names_nodup, by rw [hnames, hopened]; exact h.names_opened, ?_⟩
  intro other
  rw [subscribersOf_pubsubUnsubscribeAll, replay_topicHistory_concat, h.subscribers]
  rfl

/-- Every call within the capacity is represented. -/
theorem Represents.step {p : PubSub} {ops : List PubSubOp} (h : Represents p ops) {op : PubSubOp}
    (hcap : WithinCapacity (ops ++ [op])) : Represents (p.step op) (ops ++ [op]) := by
  cases op with
  | subscribe fd topicName => exact h.subscribe hcap
  | unsubscribe fd topicName => exact h.unsubscribe fd topicName
  | unsubscribeAll fd => exact h.unsubscribeAll fd
  | publish topicName message =>
    have hopened := openedTopics_concat_of_none ops (.publish topicName message) rfl
    refine ⟨h.names_nodup, by rw [hopened]; exact h.names_opened, ?_⟩
    intro other
    rw [replay_topicHistory_concat]
    exact h.subscribers other

/-! ## Whole runs -/

/-- Every sequence of calls within the capacity is represented. -/
theorem represents_run (p : PubSub) (ops : List PubSubOp) (h : WithinCapacity ops) :
    Represents ((pubsubInit p).run ops) ops := by
  induction ops using List.reverseRecOn with
  | nil => exact ⟨by simp [PubSub.run, pubsubInit], by simp [PubSub.run, pubsubInit],
      fun t => by simp [PubSub.run, pubsubInit, PubSub.subscribersOf, topicHistory, SetOp.replay]⟩
  | append_singleton init op ih =>
    rw [PubSub.run, List.foldl_append]
    exact (ih h.of_append).step h

/-- In a table without two topics of one name, each topic is the one found under its name. -/
theorem PubSub.subscribersOf_of_mem {p : PubSub} (h : (p.topics.live.map Topic.name).Nodup)
    {t : Topic} (ht : t ∈ p.topics.live) : p.subscribersOf t.name = t.subscribers.live := by
  have hfind : p.topics.live.find? (fun x => x.name == t.name) = some t := by
    generalize p.topics.live = topics at h ht
    induction topics with
    | nil => simp at ht
    | cons x xs ih =>
      rw [List.map_cons, List.nodup_cons] at h
      rcases List.mem_cons.mp ht with rfl | hm
      · simp
      · have hne : x.name ≠ t.name := fun he => h.1 (he ▸ List.mem_map_of_mem hm)
        rw [List.find?_cons, beq_eq_false_iff_ne.mpr hne]
        exact ih h.2 hm
  rw [PubSub.subscribersOf, hfind]

/-- After every sequence of calls within the capacity, names are distinct, subscriber lists
have no duplicates and fit, a publication attempts one delivery to each descriptor whose
last operation on the topic was a subscription, in the order of the latest effective ones,
and a further call changes no membership that it does not concern. -/
theorem pubsub_run_refines (p : PubSub) (ops : List PubSubOp) (h : WithinCapacity ops) :
    let q := (pubsubInit p).run ops
    ((q.topics.live.map Topic.name).Nodup ∧ (∀ t ∈ q.topics.live, t.subscribers.live.Nodup) ∧
      q.topics.count ≤ 50 ∧ ∀ t ∈ q.topics.live, t.subscribers.count ≤ 100) ∧
    (∀ topicName message, ∃ targets : List Int,
      pubsubPublish q topicName message =
        targets.map (fun fd => (fd, formattedMsg topicName message)) ∧
      targets.Nodup ∧
      (∀ fd, fd ∈ targets ↔ SetOp.Present (topicHistory topicName ops) fd) ∧
      targets.Pairwise fun a b => ∃ i j,
        SetOp.LatestEffective (topicHistory topicName ops) a i ∧
        SetOp.LatestEffective (topicHistory topicName ops) b j ∧ i < j) ∧
    (∀ op, WithinCapacity (ops ++ [op]) → ∀ topicName fd, ¬ op.Concerns topicName fd →
      (fd ∈ (q.step op).subscribersOf topicName ↔ fd ∈ q.subscribersOf topicName)) := by
  intro q
  have hq : Represents q ops := represents_run p ops h
  refine ⟨⟨hq.names_nodup, ?_, q.topics.count_le, fun t _ => t.subscribers.count_le⟩, ?_, ?_⟩
  · intro t ht
    rw [← PubSub.subscribersOf_of_mem hq.names_nodup ht, hq.subscribers]
    exact SetOp.nodup_replay _
  · intro topicName message
    refine ⟨SetOp.replay (topicHistory topicName ops), ?_, SetOp.nodup_replay _,
      SetOp.mem_replay_iff _, SetOp.pairwise_replay _⟩
    rw [pubsubPublish, hq.subscribers]
  · intro op hop topicName fd hnot
    rw [(hq.step hop).subscribers, hq.subscribers, replay_topicHistory_concat]
    cases hs : op.setOp? topicName with
    | none => rfl
    | some s => exact SetOp.mem_apply_other fun he => hnot ⟨s, hs, he⟩

/-- Two subscribers, the first of which leaves and comes back. -/
def returningOps : List PubSubOp :=
  [.subscribe 5 (ascii "news"), .subscribe 6 (ascii "news"), .unsubscribeAll 5,
    .subscribe 5 (ascii "news")]

theorem returningOps_withinCapacity : WithinCapacity returningOps :=
  withinCapacity_of_short (by decide) (by decide)

theorem pubsub_run_refines_returningOps :
    WithinCapacity returningOps ∧ ∃ targets : List Int,
      pubsubPublish ((pubsubInit .static).run returningOps) (ascii "news") (ascii "hi") =
        targets.map (fun fd => (fd, formattedMsg (ascii "news") (ascii "hi"))) ∧
      targets.Nodup ∧
      (∀ fd, fd ∈ targets ↔ SetOp.Present (topicHistory (ascii "news") returningOps) fd) ∧
      targets.Pairwise fun a b => ∃ i j,
        SetOp.LatestEffective (topicHistory (ascii "news") returningOps) a i ∧
        SetOp.LatestEffective (topicHistory (ascii "news") returningOps) b j ∧ i < j :=
  ⟨returningOps_withinCapacity,
    (pubsub_run_refines .static returningOps returningOps_withinCapacity).2.1
      (ascii "news") (ascii "hi")⟩

example : pubsubPublish ((pubsubInit .static).run returningOps) (ascii "news") (ascii "hi") =
    [(6, ascii "[news] hi\n"), (5, ascii "[news] hi\n")] := by decide

end AdMQ
