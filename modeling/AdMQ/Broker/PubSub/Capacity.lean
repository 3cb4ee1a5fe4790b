import AdMQ.Broker.PubSub.Members

/-!
# What the capacity of the topic table admits

A subscription is silent about its outcome. It takes effect if the descriptor is
in the list already, or if there is a slot for the topic and room in its list.
Slots are taken once and for all: the number in use is the number of distinct
topics ever subscribed to, also when none of them has a subscriber any more.
-/

namespace AdMQ

open Core

/-- There is a slot for a topic, its own or a new one. -/
def PubSub.HasSlot (p : PubSub) (topicName : CStr) : Prop :=
  topicName ∈ p.topics.live.map Topic.name ∨ p.topics.count < maxTopics

instance (p : PubSub) (topicName : CStr) : Decidable (p.HasSlot topicName) :=
  inferInstanceAs (Decidable (_ ∨ _))

/-- A subscription of the descriptor takes effect. -/
def PubSub.Admits (p : PubSub) (fd : Int) (topicName : CStr) : Prop :=
  fd ∈ p.subscribersOf topicName ∨
    p.HasSlot topicName ∧ (p.subscribersOf topicName).length < maxSubscribersPerTopic

instance (p : PubSub) (fd : Int) (topicName : CStr) : Decidable (p.Admits fd topicName) :=
  inferInstanceAs (Decidable (_ ∨ _ ∧ _))

/-- The outcome of adding a subscriber to a list. -/
theorem Topic.mem_addSubscriber_self_iff (t : Topic) (fd : Int) :
    fd ∈ (t.addSubscriber fd).subscribers.live ↔
      fd ∈ t.subscribers.live ∨ t.subscribers.live.length < maxSubscribersPerTopic := by
  rw [Slots.length_live]
  by_cases hm : fd ∈ t.subscribers.live
  · simp [Topic.addSubscriber_of_mem hm, hm]
  · by_cases hroom : t.subscribers.count < maxSubscribersPerTopic
    · simp [Topic.live_addSubscriber hm hroom, hroom]
    · simp [Topic.addSubscriber, hroom]

/-- After a call of `pubsub_subscribe` the descriptor is in the list exactly if it was admitted. -/
theorem PubSub.mem_pubsubSubscribe_self_iff (p : PubSub) (fd : Int) {topicName : CStr}
    (hlen : topicName.length ≤ 63) :
    fd ∈ (pubsubSubscribe p fd topicName).subscribersOf topicName ↔ p.Admits fd topicName := by
  by_cases hslot : p.HasSlot topicName
  · obtain ⟨t, ht, -, hsubs⟩ := p.pubsubSubscribe_spec fd hlen hslot.resolve_left
    rw [hsubs, if_pos rfl, Topic.mem_addSubscriber_self_iff, ht, PubSub.Admits]
    simp only [hslot, true_and]
  · obtain ⟨hnot, hfull⟩ := not_or.mp hslot
    rw [PubSub.pubsubSubscribe_of_full hnot hfull, PubSub.Admits]
    simp only [hslot, false_and, or_false]

/-! ## The slots in use -/

/-- The topics that have a subscriber. -/
def PubSub.activeTopics (p : PubSub) : List Topic :=
  p.topics.live.filter fun t => t.subscribers.live ≠ []

/-- The slots in use stand for the topics ever subscribed to, as far as there are enough. -/
structure SlotsTaken (p : PubSub) (ops : List PubSubOp) : Prop where
  names_nodup : (p.topics.live.map Topic.name).Nodup
  names_opened : p.topics.live.map Topic.name ⊆ openedTopics ops
  /-- As long as there is a free slot, no topic was refused one. -/
  opened : p.topics.count < maxTopics → openedTopics ops ⊆ p.topics.live.map Topic.name

theorem mem_openedTopics_subscribe {ops : List PubSubOp} {fd : Int} {topicName t : CStr} :
    t ∈ openedTopics (ops ++ [.subscribe fd topicName]) ↔ t ∈ openedTopics ops ∨ t = topicName := by
  simp [openedTopics, PubSubOp.opened?]

theorem PubSub.length_names (p : PubSub) :
    (p.topics.live.map Topic.name).length = p.topics.count := by
  rw [List.length_map, Slots.length_live]

/-- A call that opens nothing and keeps the names. -/
theorem SlotsTaken.of_names {p q : PubSub} {ops : List PubSubOp} (h : SlotsTaken p ops)
    {op : PubSubOp} (hop : op.opened? = none)
    (hnames : q.topics.live.map Topic.name = p.topics.live.map Topic.name) :
    SlotsTaken q (ops ++ [op]) := by
  have hcount : q.topics.count = p.topics.count := by
    rw [← q.length_names, hnames, p.length_names]
  refine ⟨?_, ?_, ?_⟩
  · rw [hnames]
    exact h.names_nodup
  · rw [hnames, openedTopics_concat_of_none ops op hop]
    exact h.names_opened
  · rw [hcount, hnames, openedTopics_concat_of_none ops op hop]
    exact h.opened

theorem SlotsTaken.subscribe {p : PubSub} {ops : List PubSubOp} (h : SlotsTaken p ops) (fd : Int)
    {topicName : CStr} (hlen : topicName.length ≤ 63) :
    SlotsTaken (pubsubSubscribe p fd topicName) (ops ++ [.subscribe fd topicName]) := by
  have hsub := openedTopics_subset_append ops [.subscribe fd topicName]
  by_cases hslot : p.HasSlot topicName
  · obtain ⟨-, -, hnames, -⟩ := p.pubsubSubscribe_spec fd hlen hslot.resolve_left
    have hlength := (pubsubSubscribe p fd topicName).length_names
    by_cases hmem : topicName ∈ p.topics.live.map Topic.name
    · rw [hnames, if_pos hmem, p.length_names] at hlength
      rw [if_pos hmem] at hnames
      refine ⟨?_, ?_, ?_⟩
      · rw [hnames]
        exact h.names_nodup
      · rw [hnames]
        exact fun t ht => hsub (h.names_opened ht)
      · rw [hnames, ← hlength]
        intro hroom t ht
        rcases mem_openedTopics_subscribe.mp ht with ht | rfl
        · exact h.opened hroom ht
        · exact hmem
    · have hroom := hslot.resolve_left hmem
      rw [if_neg hmem] at hnames
      refine ⟨?_, ?_, ?_⟩
      · rw [hnames]
        exact List.nodup_append_comm.mp (List.nodup_cons.mpr ⟨hmem, h.names_nodup⟩)
      · rw [hnames]
        intro t ht
        rcases List.mem_append.mp ht with ht | ht
        · exact hsub (h.names_opened ht)
        · exact mem_openedTopics_subscribe.mpr (Or.inr (List.mem_singleton.mp ht))
      · rw [hnames]
        intro _ t ht
        rcases mem_openedTopics_subscribe.mp ht with ht | rfl
        · exact List.mem_append_left _ (h.opened hroom ht)
        · exact List.mem_append_right _ (List.mem_singleton_self t)
  · -- Every slot is taken, and the topic is refused one.
    obtain ⟨hnot, hfull⟩ := not_or.mp hslot
    rw [PubSub.pubsubSubscribe_of_full hnot hfull]
    exact ⟨h.names_nodup, fun t ht => hsub (h.names_opened ht), fun hroom => absurd hroom hfull⟩

theorem SlotsTaken.step {p : PubSub} {ops : List PubSubOp} (h : SlotsTaken p ops) {op : PubSubOp}
    (hname : ∀ t ∈ op.opened?, t.length ≤ 63) : SlotsTaken (p.step op) (ops ++ [op]) := by
  cases op with
  | subscribe fd topicName => exact h.subscribe fd (hname topicName rfl)
  | unsubscribe fd topicName => exact h.of_names rfl (p.names_pubsubUnsubscribe fd topicName)
  | unsubscribeAll fd => exact h.of_names rfl (p.names_pubsubUnsubscribeAll fd)
  | publish topicName message => exact h.of_names rfl rfl

theorem slotsTaken_run (p : PubSub) (ops : List PubSubOp)
    (hnames : ∀ t ∈ openedTopics ops, t.length ≤ 63) :
    SlotsTaken ((pubsubInit p).run ops) ops := by
  induction ops using List.reverseRecOn with
  | nil => exact ⟨by simp [PubSub.run, pubsubInit], by simp [PubSub.run, pubsubInit],
      fun _ t ht => by simp [openedTopics] at ht⟩
  | append_singleton init op ih =>
    rw [PubSub.run, List.foldl_append]
    refine (ih fun t ht => hnames t (openedTopics_subset_append init [op] ht)).step ?_
    intro t ht
    refine hnames t ?_
    rw [Option.mem_def] at ht
    simp [openedTopics, ht]

/-- The number of slots in use: a topic keeps its slot when its last subscriber leaves. -/
theorem SlotsTaken.count_eq {p : PubSub} {ops : List PubSubOp} (h : SlotsTaken p ops) :
    p.topics.count = min maxTopics (openedTopics ops).length := by
  have hle := (List.subperm_of_subset h.names_nodup h.names_opened).length_le
  have hmax := p.topics.count_le
  rw [p.length_names] at hle
  by_cases hroom : p.topics.count < maxTopics
  · have hge := (List.subperm_of_subset (List.nodup_dedup _) (h.opened hroom)).length_le
    rw [p.length_names] at hge
    change (openedTopics ops).length ≤ _ at hge
    omega
  · omega

/-! ## Reclaiming slots -/

/-- A subscription takes effect while fewer than 50 topics have a subscriber and its own topic
has fewer than 100. -/
def PubSub.Reclaims (p : PubSub) (fd : Int) (topicName : CStr) : Prop :=
  p.activeTopics.length < 50 → (p.subscribersOf topicName).length < 100 →
    fd ∈ (pubsubSubscribe p fd topicName).subscribersOf topicName

instance (p : PubSub) (fd : Int) (topicName : CStr) : Decidable (p.Reclaims fd topicName) :=
  inferInstanceAs (Decidable (_ → _ → _))

/-- After every sequence of calls this holds exactly if the topic has its slot already, or fewer
than 50 topics have ever been subscribed to, or all 50 have a subscriber now. -/
theorem reclaims_iff (p : PubSub) (ops : List PubSubOp)
    (hnames : ∀ t ∈ openedTopics ops, t.length ≤ 63) (fd : Int) (topicName : CStr)
    (hlen : topicName.length ≤ 63) :
    ((pubsubInit p).run ops).Reclaims fd topicName ↔
      topicName ∈ ((pubsubInit p).run ops).topics.live.map Topic.name ∨
      (openedTopics ops).length < 50 ∨ 50 ≤ ((pubsubInit p).run ops).activeTopics.length := by
  have hcount := (slotsTaken_run p ops hnames).count_eq
  generalize (pubsubInit p).run ops = q at hcount
  rw [PubSub.Reclaims, PubSub.mem_pubsubSubscribe_self_iff q fd hlen]
  change q.topics.count = min 50 _ at hcount
  constructor
  · intro hreclaims
    by_cases hmem : topicName ∈ q.topics.live.map Topic.name
    · exact Or.inl hmem
    · refine Or.inr ?_
      by_cases hactive : q.activeTopics.length < 50
      · have hnil := PubSub.subscribersOf_of_not_mem hmem
        rw [PubSub.Admits, hnil] at hreclaims
        rcases hreclaims hactive (by simp) with hfd | ⟨hslot, -⟩
        · exact absurd hfd List.not_mem_nil
        · have hroom : q.topics.count < 50 := hslot.resolve_left hmem
          exact Or.inl (by omega)
      · exact Or.inr (Nat.le_of_not_lt hactive)
  · rintro (hmem | hfew | hmany) hactive hroom
    · exact Or.inr ⟨Or.inl hmem, hroom⟩
    · have hfree : q.topics.count < 50 := by omega
      exact Or.inr ⟨Or.inr hfree, hroom⟩
    · omega

/-- A further topic while there are free slots. -/
theorem reclaims_iff_returningOps :
    (∀ t ∈ openedTopics returningOps, t.length ≤ 63) ∧
    ((pubsubInit .static).run returningOps).Reclaims 7 (ascii "alarm") :=
  ⟨returningOps_withinCapacity.names,
    (reclaims_iff .static returningOps returningOps_withinCapacity.names 7 (ascii "alarm")
      (by decide)).mpr (Or.inr (Or.inl (by decide)))⟩

/-- A client subscribes to 50 topics and disconnects. -/
def departedOps : List PubSubOp :=
  (List.range 50).map (fun i => .subscribe 5 [UInt8.ofNat (65 + i)]) ++ [.unsubscribeAll 5]

/-- Then no topic has a subscriber, and a new topic finds no slot. -/
theorem not_reclaims_departedOps :
    ((pubsubInit .static).run departedOps).activeTopics = [] ∧
    ((pubsubInit .static).run departedOps).subscribersOf (ascii "news") = [] ∧
    (pubsubSubscribe ((pubsubInit .static).run departedOps) 6 (ascii "news")).subscribersOf
      (ascii "news") = [] ∧
    ¬ ((pubsubInit .static).run departedOps).Reclaims 6 (ascii "news") := by
  decide +kernel

end AdMQ
