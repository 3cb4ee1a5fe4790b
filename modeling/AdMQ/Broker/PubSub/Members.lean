import AdMQ.Broker.PubSub.Refinement

/-!
# Membership in the subscriber lists

What one call does to the subscriber lists when nothing is assumed about the
capacity of the arrays: a subscription adds at most its own descriptor, a
removal takes out at most its own, and no list ever holds a descriptor twice, so
a descriptor is gone from a list once it was removed from it.
-/

namespace AdMQ

open Core

/-- No subscriber list of the table holds a descriptor twice. -/
def PubSub.ListsNodup (p : PubSub) : Prop := ∀ t, (p.subscribersOf t).Nodup

/-- Without a slot for the topic a subscription changes nothing. -/
theorem PubSub.pubsubSubscribe_of_full {p : PubSub} {topicName : CStr}
    (hnot : topicName ∉ p.topics.live.map Topic.name) (hfull : ¬ p.topics.count < maxTopics)
    (fd : Int) : pubsubSubscribe p fd topicName = p := by
  rw [pubsubSubscribe, PubSub.openTopic, PubSub.findTopic_eq_none_iff.mpr hnot]
  simp only [dif_neg hfull]

/-- A subscription either finds no room or rewrites the list of its topic. -/
theorem PubSub.subscribersOf_pubsubSubscribe (p : PubSub) (fd : Int) {topicName : CStr}
    (hlen : topicName.length ≤ 63) :
    pubsubSubscribe p fd topicName = p ∨
    ∃ u : Topic, u.subscribers.live = p.subscribersOf topicName ∧
      ∀ t, (pubsubSubscribe p fd topicName).subscribersOf t =
        if t = topicName then (u.addSubscriber fd).subscribers.live else p.subscribersOf t := by
  by_cases hroom : topicName ∉ p.topics.live.map Topic.name → p.topics.count < maxTopics
  · obtain ⟨u, hu, -, hsubs⟩ := p.pubsubSubscribe_spec fd hlen hroom
    exact Or.inr ⟨u, hu, hsubs⟩
  · obtain ⟨hnot, hfull⟩ := Classical.not_imp.mp hroom
    exact Or.inl (PubSub.pubsubSubscribe_of_full hnot hfull fd)

/-- A descriptor that is new and finds room is appended; otherwise nothing changes. -/
theorem Topic.live_addSubscriber_cases (t : Topic) (fd : Int) :
    (t.addSubscriber fd).subscribers.live = t.subscribers.live ∨
      fd ∉ t.subscribers.live ∧
        (t.addSubscriber fd).subscribers.live = t.subscribers.live ++ [fd] := by
  by_cases hm : fd ∈ t.subscribers.live
  · exact Or.inl (by rw [Topic.addSubscriber_of_mem hm])
  · by_cases hroom : t.subscribers.count < maxSubscribersPerTopic
    · exact Or.inr ⟨hm, Topic.live_addSubscriber hm hroom⟩
    · exact Or.inl (by rw [Topic.addSubscriber, dif_neg hroom])

/-- Adding a subscriber to a list adds at most that one. -/
theorem Topic.mem_addSubscriber {t : Topic} {fd n : Int}
    (h : n ∈ (t.addSubscriber fd).subscribers.live) : n ∈ t.subscribers.live ∨ n = fd := by
  rcases t.live_addSubscriber_cases fd with hsame | ⟨-, hnew⟩
  · exact Or.inl (hsame ▸ h)
  · rw [hnew] at h
    simpa using h

theorem Topic.mem_addSubscriber_of_mem {t : Topic} {n : Int} (h : n ∈ t.subscribers.live)
    (fd : Int) : n ∈ (t.addSubscriber fd).subscribers.live := by
  rcases t.live_addSubscriber_cases fd with hsame | ⟨-, hnew⟩
  · rwa [hsame]
  · rw [hnew]
    exact List.mem_append_left _ h

theorem Topic.nodup_addSubscriber {t : Topic} {fd : Int} (h : t.subscribers.live.Nodup) :
    (t.addSubscriber fd).subscribers.live.Nodup := by
  rcases t.live_addSubscriber_cases fd with hsame | ⟨hm, hnew⟩
  · rwa [hsame]
  · rw [hnew]
    exact List.nodup_append_comm.mp (List.nodup_cons.mpr ⟨hm, h⟩)

/-- A subscription adds at most its own descriptor, and only to its own topic. -/
theorem PubSub.mem_pubsubSubscribe {p : PubSub} {fd n : Int} {topicName t : CStr}
    (hlen : topicName.length ≤ 63)
    (h : n ∈ (pubsubSubscribe p fd topicName).subscribersOf t) :
    n ∈ p.subscribersOf t ∨ n = fd ∧ t = topicName := by
  rcases p.subscribersOf_pubsubSubscribe fd hlen with he | ⟨u, hu, he⟩
  · rw [he] at h
    exact Or.inl h
  · rw [he] at h
    split at h
    next ht =>
      rcases Topic.mem_addSubscriber h with hm | hm
      · rw [hu] at hm
        exact Or.inl (ht ▸ hm)
      · exact Or.inr ⟨hm, ht⟩
    next => exact Or.inl h

/-- A subscription takes nobody out of a list. -/
theorem PubSub.mem_pubsubSubscribe_of_mem {p : PubSub} {n : Int} {topicName t : CStr}
    (h : n ∈ p.subscribersOf t) (fd : Int) (hlen : topicName.length ≤ 63) :
    n ∈ (pubsubSubscribe p fd topicName).subscribersOf t := by
  rcases p.subscribersOf_pubsubSubscribe fd hlen with he | ⟨u, hu, he⟩
  · rwa [he]
  · rw [he]
    split
    next ht =>
      rw [ht, ← hu] at h
      exact Topic.mem_addSubscriber_of_mem h fd
    · exact h

/-- A removal from one topic adds no subscriber. -/
theorem PubSub.mem_of_mem_pubsubUnsubscribe {p : PubSub} {fd n : Int} {topicName t : CStr}
    (h : n ∈ (pubsubUnsubscribe p fd topicName).subscribersOf t) : n ∈ p.subscribersOf t := by
  rw [PubSub.subscribersOf_pubsubUnsubscribe] at h
  split at h
  · exact List.mem_of_mem_erase h
  · exact h

/-- The removed descriptor is gone from its topic. -/
theorem PubSub.ListsNodup.notMem_pubsubUnsubscribe {p : PubSub} (h : p.ListsNodup) (fd : Int)
    (topicName : CStr) : fd ∉ (pubsubUnsubscribe p fd topicName).subscribersOf topicName := by
  rw [PubSub.subscribersOf_pubsubUnsubscribe, if_pos rfl]
  exact (h topicName).not_mem_erase

/-- A removal from all topics adds no subscriber. -/
theorem PubSub.mem_of_mem_pubsubUnsubscribeAll {p : PubSub} {fd n : Int} {t : CStr}
    (h : n ∈ (pubsubUnsubscribeAll p fd).subscribersOf t) : n ∈ p.subscribersOf t := by
  rw [subscribersOf_pubsubUnsubscribeAll] at h
  exact List.mem_of_mem_erase h

/-- The removed descriptor is gone from all topics. -/
theorem PubSub.ListsNodup.notMem_pubsubUnsubscribeAll {p : PubSub} (h : p.ListsNodup) (fd : Int)
    (t : CStr) : fd ∉ (pubsubUnsubscribeAll p fd).subscribersOf t := by
  rw [subscribersOf_pubsubUnsubscribeAll]
  exact (h t).not_mem_erase

/-! ## The lists stay without repetition -/

theorem PubSub.ListsNodup.pubsubInit (p : PubSub) : (pubsubInit p).ListsNodup := by
  intro t
  simp [PubSub.subscribersOf, AdMQ.pubsubInit]

theorem PubSub.ListsNodup.pubsubSubscribe {p : PubSub} (h : p.ListsNodup) (fd : Int)
    {topicName : CStr} (hlen : topicName.length ≤ 63) :
    (pubsubSubscribe p fd topicName).ListsNodup := by
  intro t
  rcases p.subscribersOf_pubsubSubscribe fd hlen with he | ⟨u, hu, he⟩
  · rw [he]
    exact h t
  · rw [he]
    split
    · exact Topic.nodup_addSubscriber (hu ▸ h topicName)
    · exact h t

theorem PubSub.ListsNodup.pubsubUnsubscribe {p : PubSub} (h : p.ListsNodup) (fd : Int)
    (topicName : CStr) : (pubsubUnsubscribe p fd topicName).ListsNodup := by
  intro t
  rw [PubSub.subscribersOf_pubsubUnsubscribe]
  split
  · exact (h t).erase _
  · exact h t

theorem PubSub.ListsNodup.pubsubUnsubscribeAll {p : PubSub} (h : p.ListsNodup) (fd : Int) :
    (pubsubUnsubscribeAll p fd).ListsNodup := by
  intro t
  rw [subscribersOf_pubsubUnsubscribeAll]
  exact (h t).erase _

/-! ## The arrays themselves

A name that the table cuts is never found again, so a topic may stand in the table more than
once. Also then no array holds a descriptor twice. -/

/-- No subscriber array in use holds a descriptor twice. -/
def PubSub.ArraysNodup (p : PubSub) : Prop := ∀ t ∈ p.topics.live, t.subscribers.live.Nodup

namespace PubSub.ArraysNodup

variable {p : PubSub}

theorem subscribersOf (h : p.ArraysNodup) (topicName : CStr) :
    (p.subscribersOf topicName).Nodup := by
  rw [PubSub.subscribersOf]
  split
  · exact List.nodup_nil
  next hfind => exact h _ (List.mem_of_find?_eq_some hfind)

theorem pubsubInit (p : PubSub) : (pubsubInit p).ArraysNodup := by
  intro t ht
  rw [AdMQ.pubsubInit, Slots.live_clear] at ht
  exact absurd ht List.not_mem_nil

theorem modifyTopic (h : p.ArraysNodup) (i : Nat) {f : Topic → Topic}
    (hf : ∀ t, t.subscribers.live.Nodup → (f t).subscribers.live.Nodup) :
    (p.modifyTopic i f).ArraysNodup := by
  intro t ht
  cases hi : p.topics.live[i]? with
  | none =>
    rw [PubSub.modifyTopic] at ht
    split at ht
    · exact h t ht
    · rw [Slots.live_put, List.set_eq_of_length_le (List.getElem?_eq_none_iff.mp hi)] at ht
      exact h t ht
  | some u =>
    rw [PubSub.live_modifyTopic hi] at ht
    rcases List.mem_or_eq_of_mem_set ht with ht | rfl
    · exact h t ht
    · exact hf u (h u (List.mem_of_getElem? hi))

theorem openTopic (h : p.ArraysNodup) (topicName : CStr) :
    (p.openTopic topicName).1.ArraysNodup := by
  rw [PubSub.openTopic]
  split
  · exact h
  · split
    · intro t ht
      rw [Slots.live_push, List.mem_append, List.mem_singleton] at ht
      rcases ht with ht | rfl
      · exact h t ht
      · rw [Topic.reopen, Slots.live_clear]
        exact List.nodup_nil
    · exact h

theorem pubsubSubscribe (h : p.ArraysNodup) (fd : Int) (topicName : CStr) :
    (pubsubSubscribe p fd topicName).ArraysNodup := by
  have hopen := h.openTopic topicName
  rw [AdMQ.pubsubSubscribe]
  split
  next heq =>
    rw [heq] at hopen
    exact hopen
  next heq =>
    rw [heq] at hopen
    exact hopen.modifyTopic _ fun _ => Topic.nodup_addSubscriber

theorem pubsubUnsubscribe (h : p.ArraysNodup) (fd : Int) (topicName : CStr) :
    (pubsubUnsubscribe p fd topicName).ArraysNodup := by
  rw [AdMQ.pubsubUnsubscribe]
  split
  · exact h
  · refine h.modifyTopic _ ?_
    intro t ht
    rw [Topic.live_dropSubscriber]
    exact ht.erase fd

theorem pubsubUnsubscribeAll (h : p.ArraysNodup) (fd : Int) :
    (pubsubUnsubscribeAll p fd).ArraysNodup := by
  intro t ht
  rw [AdMQ.pubsubUnsubscribeAll, PubSub.live_foldl_modifyTopic] at ht
  obtain ⟨u, hu, rfl⟩ := List.mem_map.mp ht
  rw [Topic.live_dropSubscriber]
  exact (h u hu).erase fd

theorem step (h : p.ArraysNodup) (op : PubSubOp) : (p.step op).ArraysNodup := by
  cases op with
  | subscribe fd topic => exact h.pubsubSubscribe fd topic
  | unsubscribe fd topic => exact h.pubsubUnsubscribe fd topic
  | unsubscribeAll fd => exact h.pubsubUnsubscribeAll fd
  | publish topic message => exact h

theorem run (h : p.ArraysNodup) (ops : List PubSubOp) : (p.run ops).ArraysNodup := by
  induction ops generalizing p with
  | nil => exact h
  | cons op ops ih => exact ih (h.step op)

end PubSub.ArraysNodup

end AdMQ
