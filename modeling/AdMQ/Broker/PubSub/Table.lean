import AdMQ.Core.CString
import AdMQ.Core.Slots

/-!
# The topic table

The static arrays of `pubsub.c` and the functions that run under `pubsub_lock`.
Topics are never closed: a table slot keeps its name once it has one, and a
subscriber list is searched, appended to and shifted in place. Subscribers are
bare file descriptors.
-/

namespace AdMQ

open Core

/-- `MAX_TOPICS` of `pubsub.h`. -/
def maxTopics : Nat := 50

/-- `MAX_SUBSCRIBERS_PER_TOPIC`. -/
def maxSubscribersPerTopic : Nat := 100

/-- `Topic`: a name and its subscriber array with `sub_count`. -/
structure Topic where
  name : CStr
  subscribers : Slots Int maxSubscribersPerTopic
  deriving DecidableEq

/-- The array `topics` with `topic_count`. -/
structure PubSub where
  topics : Slots Topic maxTopics
  deriving DecidableEq

/-- The static array before any call. -/
def PubSub.static : PubSub := ⟨Slots.empty maxTopics ⟨[], Slots.empty _ 0⟩⟩

/-- `pubsub_init`: only the count is reset. -/
def pubsubInit (p : PubSub) : PubSub := ⟨p.topics.clear⟩

/-- The search loop over the topics in use. -/
def PubSub.findTopic (p : PubSub) (topicName : CStr) : Option Nat :=
  p.topics.live.findIdx? fun t => t.name == topicName

/-- Rewrite the topic at an index. -/
def PubSub.modifyTopic (p : PubSub) (i : Nat) (f : Topic → Topic) : PubSub :=
  match p.topics.slots[i]? with
  | none => p
  | some t => ⟨p.topics.put i (f t)⟩

/-- A slot taken for a new name; its subscriber array is emptied, not cleared. -/
def Topic.reopen (t : Topic) (topicName : CStr) : Topic := ⟨topicName.take 63, t.subscribers.clear⟩

/-- The topic to subscribe to: the one found, or else a new one while the table has room. -/
def PubSub.openTopic (p : PubSub) (topicName : CStr) : PubSub × Option Nat :=
  match p.findTopic topicName with
  | some i => (p, some i)
  | none =>
    if h : p.topics.count < maxTopics then
      let slot := p.topics.slots.get ⟨p.topics.count, by rw [p.topics.length_slots]; exact h⟩
      (⟨p.topics.push (slot.reopen topicName) h⟩, some p.topics.count)
    else (p, none)

/-- Append a subscriber that is not there yet, while the array has room. -/
def Topic.addSubscriber (t : Topic) (clientFd : Int) : Topic :=
  if h : t.subscribers.count < maxSubscribersPerTopic then
    if clientFd ∈ t.subscribers.live then t
    else { t with subscribers := t.subscribers.push clientFd h }
  else t

/-- Remove the first occurrence of a subscriber by shifting the later ones down. -/
def Topic.dropSubscriber (t : Topic) (clientFd : Int) : Topic :=
  match t.subscribers.live.findIdx? (· == clientFd) with
  | none => t
  | some j => { t with subscribers := t.subscribers.removeAt j }

/-- `pubsub_subscribe`. -/
def pubsubSubscribe (p : PubSub) (clientFd : Int) (topicName : CStr) : PubSub :=
  match p.openTopic topicName with
  | (p, none) => p
  | (p, some i) => p.modifyTopic i (·.addSubscriber clientFd)

/-- `pubsub_unsubscribe`. -/
def pubsubUnsubscribe (p : PubSub) (clientFd : Int) (topicName : CStr) : PubSub :=
  match p.findTopic topicName with
  | none => p
  | some i => p.modifyTopic i (·.dropSubscriber clientFd)

/-- `pubsub_unsubscribe_all`. -/
def pubsubUnsubscribeAll (p : PubSub) (clientFd : Int) : PubSub :=
  (List.range p.topics.count).foldl (fun p i => p.modifyTopic i (·.dropSubscriber clientFd)) p

/-- `formatted_msg`: the text as `snprintf` cuts it to the buffer. -/
def formattedMsg (topicName message : CStr) : CStr :=
  (ascii "[" ++ topicName ++ ascii "] " ++ message ++ [newline]).take 1023

/-- The subscribers of a topic in the order of the array; none without such a topic. -/
def PubSub.subscribersOf (p : PubSub) (topicName : CStr) : List Int :=
  match p.topics.live.find? fun t => t.name == topicName with
  | none => []
  | some t => t.subscribers.live

/-- `pubsub_publish`: the deliveries it attempts, each a descriptor and the text written. -/
def pubsubPublish (p : PubSub) (topicName message : CStr) : List (Int × CStr) :=
  (p.subscribersOf topicName).map fun clientFd => (clientFd, formattedMsg topicName message)

/-! ## Subscriber lists of one topic -/

@[simp] theorem Topic.name_addSubscriber (t : Topic) (fd : Int) :
    (t.addSubscriber fd).name = t.name := by
  unfold Topic.addSubscriber
  split
  · split <;> rfl
  · rfl

@[simp] theorem Topic.name_dropSubscriber (t : Topic) (fd : Int) :
    (t.dropSubscriber fd).name = t.name := by
  unfold Topic.dropSubscriber
  split <;> rfl

/-- A subscriber in the list is not added again. -/
theorem Topic.addSubscriber_of_mem {t : Topic} {fd : Int} (h : fd ∈ t.subscribers.live) :
    t.addSubscriber fd = t := by
  unfold Topic.addSubscriber
  split <;> rfl

/-- A new subscriber goes to the end of the list. -/
theorem Topic.live_addSubscriber {t : Topic} {fd : Int} (h : fd ∉ t.subscribers.live)
    (hroom : t.subscribers.count < maxSubscribersPerTopic) :
    (t.addSubscriber fd).subscribers.live = t.subscribers.live ++ [fd] := by
  simp [Topic.addSubscriber, hroom, h]

/-- Dropping a subscriber erases its first occurrence. -/
theorem Topic.live_dropSubscriber (t : Topic) (fd : Int) :
    (t.dropSubscriber fd).subscribers.live = t.subscribers.live.erase fd := by
  rw [List.erase_eq_eraseIdx, List.idxOf?, Topic.dropSubscriber]
  cases hj : t.subscribers.live.findIdx? (· == fd) with
  | none => rfl
  | some j =>
    obtain ⟨hlt, -⟩ := List.findIdx?_eq_some_iff_getElem.mp hj
    rw [Slots.length_live] at hlt
    exact Slots.live_removeAt _ hlt

/-! ## The table -/

/-- Rewriting a topic in use rewrites it in the list of topics in use. -/
theorem PubSub.live_modifyTopic {p : PubSub} {i : Nat} {t : Topic}
    (h : p.topics.live[i]? = some t) (f : Topic → Topic) :
    (p.modifyTopic i f).topics.live = p.topics.live.set i (f t) := by
  have hs : p.topics.slots[i]? = some t := by
    rw [Slots.live, List.getElem?_take] at h
    split at h
    · exact h
    · cases h
  rw [PubSub.modifyTopic, hs]
  exact Slots.live_put ..

/-- Looking a name up after the first topic of some name was rewritten. -/
theorem find?_set_findIdx? {topics : List Topic} {topicName : CStr} {i : Nat} {t t' : Topic}
    (hi : topics.findIdx? (fun t => t.name == topicName) = some i) (ht : topics[i]? = some t)
    (hname : t'.name = t.name) (other : CStr) :
    (topics.set i t').find? (fun t => t.name == other) =
      if other = topicName then some t' else topics.find? (fun t => t.name == other) := by
  induction topics generalizing i with
  | nil => simp at hi
  | cons x xs ih =>
    rw [List.findIdx?_cons] at hi
    by_cases hx : x.name = topicName
    · obtain rfl : 0 = i := by simpa [hx] using hi
      obtain rfl : x = t := by simpa using ht
      by_cases ho : other = topicName
      · simp [hname, hx, ho]
      · have hne : ¬ topicName = other := Ne.symm ho
        simp [hname, hx, ho, hne]
    · have hi' : (xs.findIdx? fun t => t.name == topicName).map (· + 1) = some i := by
        simpa [hx] using hi
      obtain ⟨k, hk, rfl⟩ := Option.map_eq_some_iff.mp hi'
      rw [List.set_cons_succ, List.find?_cons, List.find?_cons, ih hk (by simpa using ht)]
      by_cases ho : other = topicName
      · rw [ho, beq_eq_false_iff_ne.mpr hx, if_pos rfl]
      · rw [if_neg ho, if_neg ho]

/-- A topic that is found has an index and stands there. -/
theorem PubSub.getElem?_of_findTopic {p : PubSub} {topicName : CStr} {i : Nat}
    (h : p.findTopic topicName = some i) :
    ∃ t, p.topics.live[i]? = some t ∧ t.name = topicName := by
  obtain ⟨hlt, hname, -⟩ := List.findIdx?_eq_some_iff_getElem.mp h
  exact ⟨_, List.getElem?_eq_getElem hlt, by simpa using hname⟩

/-- The subscribers of every topic after the first topic of some name was rewritten. -/
theorem PubSub.subscribersOf_modifyTopic {p : PubSub} {topicName : CStr} {i : Nat} {t : Topic}
    (hi : p.findTopic topicName = some i) (ht : p.topics.live[i]? = some t)
    {f : Topic → Topic} (hname : (f t).name = t.name) (other : CStr) :
    (p.modifyTopic i f).subscribersOf other =
      if other = topicName then (f t).subscribers.live else p.subscribersOf other := by
  rw [PubSub.subscribersOf, PubSub.live_modifyTopic ht, find?_set_findIdx? hi ht hname]
  by_cases ho : other = topicName
  · simp [ho]
  · simp [ho, PubSub.subscribersOf]

/-- The first topic of a name decides its subscribers. -/
theorem PubSub.subscribersOf_of_findTopic {p : PubSub} {topicName : CStr} {i : Nat} {t : Topic}
    (hi : p.findTopic topicName = some i) (ht : p.topics.live[i]? = some t) :
    p.subscribersOf topicName = t.subscribers.live := by
  have h := find?_set_findIdx? hi ht rfl topicName
  obtain ⟨hlt, rfl⟩ := List.getElem?_eq_some_iff.mp ht
  rw [List.set_getElem_self, if_pos rfl] at h
  rw [PubSub.subscribersOf, h]

theorem PubSub.findTopic_eq_none_iff {p : PubSub} {topicName : CStr} :
    p.findTopic topicName = none ↔ topicName ∉ p.topics.live.map Topic.name := by
  simp only [PubSub.findTopic, List.findIdx?_eq_none_iff, List.mem_map, not_exists, not_and,
    beq_eq_false_iff_ne, ne_eq]

theorem PubSub.subscribersOf_of_not_mem {p : PubSub} {topicName : CStr}
    (h : topicName ∉ p.topics.live.map Topic.name) : p.subscribersOf topicName = [] := by
  have hnone : p.topics.live.find? (fun t => t.name == topicName) = none := by
    rw [List.find?_eq_none]
    intro t ht he
    exact h (List.mem_map.mpr ⟨t, ht, by simpa using he⟩)
  rw [PubSub.subscribersOf, hnone]

/-- The loop over all topics rewrites each of them once. -/
theorem PubSub.live_foldl_modifyTopic (p : PubSub) (f : Topic → Topic) :
    ((List.range p.topics.count).foldl (fun p i => p.modifyTopic i f) p).topics.live =
      p.topics.live.map f := by
  have hstep : ∀ n ≤ p.topics.count,
      ((List.range n).foldl (fun p i => p.modifyTopic i f) p).topics.live =
        (p.topics.live.take n).map f ++ p.topics.live.drop n := by
    intro n
    induction n with
    | zero => simp
    | succ n ih =>
      intro hn
      have hlen : n < p.topics.live.length := by rw [Slots.length_live]; omega
      have hlive := ih (by omega)
      rw [List.drop_eq_getElem_cons hlen] at hlive
      have hpre : ((p.topics.live.take n).map f).length = n := by simp; omega
      have hget : ((List.range n).foldl (fun p i => p.modifyTopic i f) p).topics.live[n]? =
          some p.topics.live[n] := by
        rw [hlive, List.getElem?_append_right (by omega), hpre, Nat.sub_self]
        rfl
      rw [List.range_succ, List.foldl_append, List.foldl_cons, List.foldl_nil,
        PubSub.live_modifyTopic hget, hlive, List.set_append_right _ _ (by omega), hpre,
        Nat.sub_self, List.set_cons_zero, List.take_succ_eq_append_getElem hlen, List.map_append,
        List.append_assoc]
      rfl
  have h := hstep p.topics.count (Nat.le_refl _)
  rwa [List.take_of_length_le (by simp), List.drop_of_length_le (by simp), List.append_nil] at h

end AdMQ
