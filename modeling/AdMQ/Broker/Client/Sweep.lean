import AdMQ.Broker.Client.Calls
import AdMQ.Broker.PubSub.Members
import Mathlib.Data.Set.Card

/-!
# One sweep

`client_manager_sweep_inactive` while nothing else runs. The first loop walks the chains
of the map and stores the descriptors of the expired clients in an array of a hundred
elements that it does not check; the second one removes each of them from the topics and
from the map. While the array holds them, a sweep takes away exactly the expired clients.
-/

namespace AdMQ

open Core

/-- The seconds from the last activity of a client to a time. -/
def Client.inactivity (k : Client) (now : Nat) : Int := (now : Int) - k.lastActivity

/-- The test of the sweep: idle for more than the timeout. -/
def Client.Expired (k : Client) (timeout : Int) (now : Nat) : Prop :=
  k.state = .idle ∧ timeout < k.inactivity now

instance (k : Client) (timeout : Int) (now : Nat) : Decidable (k.Expired timeout now) :=
  inferInstanceAs (Decidable (_ ∧ _))

/-! ## The work list -/

/-- The length of `fds_to_remove`. -/
def maxRemovals : Nat := 100

/-- The stores into `fds_to_remove`, each an index and a descriptor, and `remove_count`. -/
structure WorkList where
  stores : List (Nat × Int)
  removeCount : Nat
  indices : stores.map Prod.fst = List.range removeCount

namespace WorkList

def empty : WorkList := ⟨[], 0, rfl⟩

theorem indices_concat (w : WorkList) (fd : Int) :
    (w.stores ++ [(w.removeCount, fd)]).map Prod.fst = List.range (w.removeCount + 1) := by
  rw [List.map_append, w.indices, List.range_succ]
  rfl

/-- `fds_to_remove[remove_count++] = fd`. -/
def put (w : WorkList) (fd : Int) : WorkList :=
  ⟨w.stores ++ [(w.removeCount, fd)], w.removeCount + 1, w.indices_concat fd⟩

/-- The descriptors that the second loop reads back. -/
def fds (w : WorkList) : List Int := w.stores.map Prod.snd

theorem length_fds (w : WorkList) : w.fds.length = w.removeCount := by
  have hlength := congrArg List.length w.indices
  rw [List.length_map, List.length_range] at hlength
  rw [fds, List.length_map, hlength]

@[simp] theorem fds_put (w : WorkList) (fd : Int) : (w.put fd).fds = w.fds ++ [fd] :=
  List.map_append

/-- The stores stay inside an array exactly if they are not more than its elements. -/
theorem forall_index_lt_iff (w : WorkList) (n : Nat) :
    (∀ store ∈ w.stores, store.1 < n) ↔ w.fds.length ≤ n := by
  have hmem : ∀ i, (∃ store ∈ w.stores, store.1 = i) ↔ i < w.removeCount := by
    intro i
    rw [← List.mem_range, ← w.indices, List.mem_map]
  rw [w.length_fds]
  constructor
  · intro h
    by_contra hgt
    obtain ⟨store, hstore, hindex⟩ := (hmem n).mpr (by omega)
    exact absurd (h store hstore) (by omega)
  · intro h store hstore
    exact Nat.lt_of_lt_of_le ((hmem store.1).mp ⟨store, hstore, rfl⟩) h

end WorkList

/-- The number of elements of a list without repetitions, as the size of a set. -/
theorem encard_eq_length {α : Type*} [DecidableEq α] {l : List α} (h : l.Nodup) {S : Set α}
    (hS : ∀ a, a ∈ S ↔ a ∈ l) : S.encard = l.length := by
  have hset : S = ↑l.toFinset := by
    ext a
    rw [hS, List.coe_toFinset]
    rfl
  rw [hset, Set.encard_coe_eq_coe_finsetCard, List.toFinset_card_of_nodup h]

namespace Registry

/-- The body of the inner loop. -/
def scanEntry (r : Registry) (timeout : Int) (now : Nat) (w : WorkList) (entry : CStr × ConnId) :
    WorkList :=
  if isFdKey entry.1 then
    if (r.client entry.2).Expired timeout now then w.put (r.client entry.2).fd else w
  else w

/-- The first loop, over all buckets and the entries of each. -/
def scan (r : Registry) (timeout : Int) (now : Nat) : WorkList :=
  r.clientsMap.entries.foldl (r.scanEntry timeout now) .empty

/-- The entries that the loop puts on the list. -/
def expiredEntries (r : Registry) (timeout : Int) (now : Nat) : List (CStr × ConnId) :=
  r.clientsMap.entries.filter fun e => isFdKey e.1 && (r.client e.2).Expired timeout now

variable {r : Registry} {timeout : Int} {now : Nat}

/-- The descriptors on the list, client by client. -/
theorem fds_scan (r : Registry) (timeout : Int) (now : Nat) :
    (r.scan timeout now).fds =
      ((r.expiredEntries timeout now).map Prod.snd).map fun c => (r.client c).fd := by
  have hloop : ∀ (l : List (CStr × ConnId)) (w : WorkList),
      (l.foldl (r.scanEntry timeout now) w).fds = w.fds ++
        (l.filter fun e => isFdKey e.1 && (r.client e.2).Expired timeout now).map
          fun e => (r.client e.2).fd := by
    intro l
    induction l with
    | nil => exact fun w => (List.append_nil _).symm
    | cons e l ih =>
      intro w
      rw [List.foldl_cons, ih, scanEntry]
      by_cases hkey : isFdKey e.1 = true
      · by_cases hexpired : (r.client e.2).Expired timeout now
        · simp [hkey, hexpired]
        · simp [hkey, hexpired]
      · simp [hkey]
  rw [List.map_map]
  exact hloop _ .empty

theorem mem_expiredEntries {key : CStr} {c : ConnId} :
    (key, c) ∈ r.expiredEntries timeout now ↔ r.clientsMap.get key = some c ∧
      isFdKey key = true ∧ (r.client c).Expired timeout now := by
  rw [expiredEntries, List.mem_filter, ChainTable.mem_entries_iff, Bool.and_eq_true,
    decide_eq_true_iff]

theorem nodup_keys_expiredEntries (r : Registry) (timeout : Int) (now : Nat) :
    ((r.expiredEntries timeout now).map Prod.fst).Nodup :=
  (List.filter_sublist.map _).nodup r.clientsMap.nodup_keys_entries

/-- In every registry and at every time, the sweep stores inside its array exactly if at most a
hundred entries under descriptor keys belong to expired clients. -/
theorem stores_bounded_iff (r : Registry) (timeout : Int) (now : Nat) :
    (∀ store ∈ (r.scan timeout now).stores, store.1 < maxRemovals) ↔
      {key | isFdKey key = true ∧ ∃ c, r.clientsMap.get key = some c ∧
        (r.client c).Expired timeout now}.encard ≤ 100 := by
  have hmem : ∀ key, key ∈ {key | isFdKey key = true ∧ ∃ c, r.clientsMap.get key = some c ∧
      (r.client c).Expired timeout now} ↔ key ∈ (r.expiredEntries timeout now).map Prod.fst := by
    intro key
    rw [Set.mem_ofPred_eq, List.mem_map]
    constructor
    · rintro ⟨hkey, c, hget, hexpired⟩
      exact ⟨(key, c), mem_expiredEntries.mpr ⟨hget, hkey, hexpired⟩, rfl⟩
    · rintro ⟨⟨_, c⟩, hmem, rfl⟩
      obtain ⟨hget, hkey, hexpired⟩ := mem_expiredEntries.mp hmem
      exact ⟨hkey, c, hget, hexpired⟩
  rw [WorkList.forall_index_lt_iff, fds_scan, List.length_map, List.length_map,
    encard_eq_length (r.nodup_keys_expiredEntries timeout now) hmem, List.length_map]
  exact Nat.cast_le.symm

end Registry

/-- As many connections as a burst of devices makes. -/
def burst (n : Nat) : List RegistryCall := (List.range n).map fun fd => .add (fd + 5) 0 .zero

/-- A hundred and one connections fall silent together: the last one is stored behind the
array. -/
theorem store_beyond_array :
    (run Connections.step .init (burst 101)).map (fun s =>
      (s.registry.scan 60 61).stores.any fun store => store.1 == 100) = some true := by
  decide +kernel

/-! ## The removals -/

/-- `client_remove` without interruption. -/
def Registry.remove (r : Registry) (fd : Int) : Registry :=
  match r.byFd fd with
  | none => r
  | some c => { r with clientsMap := r.dropEntries fd c }.modify c Client.tornDown

/-- The same call among others. -/
theorem Connections.registry_remove {s s' : Connections} {fd : Int}
    (hs : s.step (.remove fd) = some s') : s'.registry = s.registry.remove fd := by
  rw [Registry.remove]
  cases move_of_step hs with
  | nobodyRemoved hget =>
    rw [hget]
    rfl
  | removed hget =>
    rw [hget]
    rfl

/-- Removals in a row are calls in a row. -/
theorem Connections.run_remove (s : Connections) (fds : List Int) :
    ∃ s', run step s (fds.map .remove) = some s' ∧
      s'.registry = fds.foldl Registry.remove s.registry := by
  induction fds generalizing s with
  | nil => exact ⟨s, rfl, rfl⟩
  | cons fd fds ih =>
    obtain ⟨s₁, hs₁⟩ := s.exists_step (.remove fd)
    obtain ⟨s', hrun, hregistry⟩ := ih s₁
    refine ⟨s', ?_, ?_⟩
    · rw [List.map_cons, run, hs₁]
      exact hrun
    · rw [hregistry, registry_remove hs₁]
      rfl

/-- The body of the second loop. -/
def removeSwept (state : Registry × PubSub) (fd : Int) : Registry × PubSub :=
  (state.1.remove fd, pubsubUnsubscribeAll state.2 fd)

/-- `client_manager_sweep_inactive`; a store outside the array has no defined outcome. -/
def clientManagerSweepInactive (r : Registry) (p : PubSub) (timeout : Int) (now : Nat) :
    Option (Registry × PubSub) :=
  if ∀ store ∈ (r.scan timeout now).stores, store.1 < maxRemovals then
    some ((r.scan timeout now).fds.foldl removeSwept (r, p))
  else none

/-- The loop removes from the map and from the topics independently. -/
theorem foldl_removeSwept (fds : List Int) (r : Registry) (p : PubSub) :
    fds.foldl removeSwept (r, p) =
      (fds.foldl Registry.remove r, fds.foldl pubsubUnsubscribeAll p) := by
  induction fds generalizing r p with
  | nil => rfl
  | cons fd fds ih => exact ih ..

/-! ### From the topics -/

/-- The topics in use with their subscribers. -/
def PubSub.lists (p : PubSub) : List (CStr × List Int) :=
  p.topics.live.map fun t => (t.name, t.subscribers.live)

theorem PubSub.ArraysNodup.lists_unsubscribeAll {p : PubSub} (h : p.ArraysNodup) (fd : Int) :
    (AdMQ.pubsubUnsubscribeAll p fd).lists = p.lists.map (Prod.map id (List.filter (· != fd))) := by
  rw [PubSub.lists, AdMQ.pubsubUnsubscribeAll, PubSub.live_foldl_modifyTopic, List.map_map,
    PubSub.lists, List.map_map]
  refine List.map_congr_left ?_
  intro t ht
  rw [Function.comp_apply, Topic.name_dropSubscriber, Topic.live_dropSubscriber,
    (h t ht).erase_eq_filter]
  rfl

/-- Unsubscribing one descriptor after the other leaves the subscribers that are not among
them. -/
theorem PubSub.ArraysNodup.lists_foldl_unsubscribeAll {p : PubSub} (h : p.ArraysNodup)
    (fds : List Int) : (fds.foldl AdMQ.pubsubUnsubscribeAll p).lists =
      p.lists.map (Prod.map id (List.filter (· ∉ fds))) := by
  induction fds generalizing p with
  | nil =>
    refine (List.map_id'' ?_ _).symm
    intro t
    exact Prod.ext rfl (List.filter_eq_self.mpr fun n _ => by simp)
  | cons fd fds ih =>
    rw [List.foldl_cons, ih (h.pubsubUnsubscribeAll fd), h.lists_unsubscribeAll, List.map_map]
    refine List.map_congr_left ?_
    intro t _
    refine Prod.ext rfl ?_
    refine List.filter_filter.trans (List.filter_congr ?_)
    intro n _
    rw [Bool.eq_iff_iff]
    simp [and_comm]

/-! ### From the map -/

/-- The representation invariant of the registry: an entry is under the descriptor of its client,
or under its hostname, which is no descriptor key; the client is found under its descriptor; and
it has not been torn down. -/
structure Registry.WellFormed (r : Registry) : Prop where
  entry : ∀ key c, r.clientsMap.get key = some c → key = fdKey (r.client c).fd ∨
    isFdKey key = false ∧ key ≠ [] ∧ (r.client c).hostname = key
  back : ∀ key c, r.clientsMap.get key = some c → r.byFd (r.client c).fd = some c
  idle : ∀ key c, r.clientsMap.get key = some c → (r.client c).state = .idle

namespace Registry.WellFormed

variable {r : Registry} {timeout : Int} {now : Nat}

theorem fd_eq (h : r.WellFormed) {fd : Int} {c : ConnId} (hc : r.byFd fd = some c) :
    (r.client c).fd = fd := by
  rcases h.entry _ _ hc with he | ⟨hplain, -⟩
  · exact (fdKey_injective he).symm
  · rw [isFdKey_fdKey] at hplain
    cases hplain

theorem client_remove_of_ne {fd : Int} {c d : ConnId} (hc : r.byFd fd = some c) (hd : d ≠ c) :
    (r.remove fd).client d = r.client d := by
  rw [Registry.remove, hc]
  exact Registry.client_modify_of_ne _ hd _

/-- A removal deletes the entries of its client and no others. -/
theorem get_remove_iff (h : r.WellFormed) {fd : Int} {c d : ConnId} (hc : r.byFd fd = some c)
    (key : CStr) : (r.remove fd).clientsMap.get key = some d ↔
      r.clientsMap.get key = some d ∧ d ≠ c := by
  have hremove : (r.remove fd).clientsMap.get key = (r.dropEntries fd c).get key := by
    rw [Registry.remove, hc]
    rfl
  rw [hremove]
  constructor
  · intro hd
    have hget := Registry.get_of_get_dropEntries hd
    refine ⟨hget, ?_⟩
    rintro rfl
    refine Registry.get_dropEntries_ne ?_ hd
    rcases h.entry key d hget with he | ⟨-, hne, hname⟩
    · exact Or.inl (he.trans (congrArg fdKey (h.fd_eq hc)))
    · exact Or.inr ⟨hname.symm, hne⟩
  · rintro ⟨hget, hne⟩
    rw [Registry.get_dropEntries, if_neg]
    · exact hget
    · rintro (rfl | ⟨-, -, hlead⟩)
      · exact hne (Option.some.inj (hget.symm.trans hc))
      · exact hne (Option.some.inj (hget.symm.trans hlead))

theorem remove (h : r.WellFormed) {fd : Int} {c : ConnId} (hc : r.byFd fd = some c) :
    (r.remove fd).WellFormed := by
  refine ⟨?_, ?_, ?_⟩
  · intro key d hd
    obtain ⟨hget, hne⟩ := (h.get_remove_iff hc key).mp hd
    rw [client_remove_of_ne hc hne]
    exact h.entry key d hget
  · intro key d hd
    obtain ⟨hget, hne⟩ := (h.get_remove_iff hc key).mp hd
    rw [client_remove_of_ne hc hne]
    exact (h.get_remove_iff hc _).mpr ⟨h.back key d hget, hne⟩
  · intro key d hd
    obtain ⟨hget, hne⟩ := (h.get_remove_iff hc key).mp hd
    rw [client_remove_of_ne hc hne]
    exact h.idle key d hget

/-- Removing registered clients one after the other leaves the entries of the others, and their
records. -/
theorem foldl_remove (h : r.WellFormed) {cs : List ConnId} (hnodup : cs.Nodup)
    (hcs : ∀ c ∈ cs, r.byFd (r.client c).fd = some c) :
    (∀ key d, ((cs.map fun c => (r.client c).fd).foldl Registry.remove r).clientsMap.get key =
        some d ↔ r.clientsMap.get key = some d ∧ d ∉ cs) ∧
      ∀ d, d ∉ cs →
        ((cs.map fun c => (r.client c).fd).foldl Registry.remove r).client d = r.client d := by
  induction cs generalizing r with
  | nil => simp
  | cons c cs ih =>
    rw [List.nodup_cons] at hnodup
    rw [List.forall_mem_cons] at hcs
    have hne : ∀ d ∈ cs, d ≠ c := by
      rintro d hd rfl
      exact hnodup.1 hd
    -- The descriptors were read before the loop; the removals leave those still to come.
    have hfds : (cs.map fun d => (r.client d).fd) =
        cs.map fun d => ((r.remove (r.client c).fd).client d).fd :=
      List.map_congr_left fun d hd => by rw [client_remove_of_ne hcs.1 (hne d hd)]
    have hcs' : ∀ d ∈ cs, (r.remove (r.client c).fd).byFd
        ((r.remove (r.client c).fd).client d).fd = some d := by
      intro d hd
      rw [client_remove_of_ne hcs.1 (hne d hd)]
      exact (h.get_remove_iff hcs.1 _).mpr ⟨hcs.2 d hd, hne d hd⟩
    obtain ⟨hget, hclient⟩ := ih (h.remove hcs.1) hnodup.2 hcs'
    rw [List.map_cons, List.foldl_cons, hfds]
    constructor
    · intro key d
      rw [hget, h.get_remove_iff hcs.1, and_assoc, List.mem_cons, not_or]
    · intro d hd
      rw [List.mem_cons, not_or] at hd
      rw [hclient d hd.2, client_remove_of_ne hcs.1 hd.1]

/-! ### Both -/

/-- The clients on the list of a sweep. -/
theorem mem_expired_iff (h : r.WellFormed) {c : ConnId} :
    c ∈ (r.expiredEntries timeout now).map Prod.snd ↔
      r.byFd (r.client c).fd = some c ∧ timeout < (r.client c).inactivity now := by
  rw [List.mem_map]
  constructor
  · rintro ⟨⟨key, _⟩, hmem, rfl⟩
    obtain ⟨hget, -, -, hlate⟩ := Registry.mem_expiredEntries.mp hmem
    exact ⟨h.back key _ hget, hlate⟩
  · rintro ⟨hget, hlate⟩
    exact ⟨(fdKey (r.client c).fd, c),
      Registry.mem_expiredEntries.mpr ⟨hget, isFdKey_fdKey _, h.idle _ _ hget, hlate⟩, rfl⟩

/-- No client is on it twice. -/
theorem nodup_expired (h : r.WellFormed) (timeout : Int) (now : Nat) :
    ((r.expiredEntries timeout now).map Prod.snd).Nodup := by
  refine (r.nodup_keys_expiredEntries timeout now).of_map.map_on ?_
  have hkey : ∀ e ∈ r.expiredEntries timeout now, e.1 = fdKey (r.client e.2).fd := by
    rintro ⟨key, c⟩ hmem
    obtain ⟨hget, hfd, -⟩ := Registry.mem_expiredEntries.mp hmem
    rcases h.entry key c hget with he | ⟨hplain, -⟩
    · exact he
    · rw [hfd] at hplain
      cases hplain
  intro e he e' he' heq
  refine Prod.ext ?_ heq
  rw [hkey e he, hkey e' he', heq]

/-- The descriptors on it. -/
theorem notMem_fds_scan_iff (h : r.WellFormed) (fd : Int) :
    fd ∉ (r.scan timeout now).fds ↔
      ∀ c, r.byFd fd = some c → (r.client c).inactivity now ≤ timeout := by
  have hmem : fd ∈ (r.scan timeout now).fds ↔
      ∃ c, r.byFd fd = some c ∧ timeout < (r.client c).inactivity now := by
    rw [Registry.fds_scan, List.mem_map]
    constructor
    · rintro ⟨c, hc, rfl⟩
      exact ⟨c, h.mem_expired_iff.mp hc⟩
    · rintro ⟨c, hget, hlate⟩
      have hfd := h.fd_eq hget
      exact ⟨c, h.mem_expired_iff.mpr ⟨hfd.symm ▸ hget, hlate⟩, hfd⟩
  rw [hmem]
  simp

end Registry.WellFormed

/-- What a sweep is to leave of a registry and of the topics. -/
structure SweptExactly (r r' : Registry) (p p' : PubSub) (timeout : Int) (now : Nat) : Prop where
  /-- Of the entries, under descriptors and hostnames, those of clients within the timeout. -/
  entries : ∀ key c, r'.clientsMap.get key = some c ↔
    r.clientsMap.get key = some c ∧ (r.client c).inactivity now ≤ timeout
  /-- The records of all clients but the registered ones that were inactive for longer. -/
  clients : ∀ c, (∀ key, r.clientsMap.get key = some c → (r.client c).inactivity now ≤ timeout) →
    r'.client c = r.client c
  /-- All topics, and of their subscribers the descriptors of no client inactive for longer. -/
  topics : p'.lists = p.lists.map (Prod.map id (List.filter fun fd =>
    (r.byFd fd).all fun c => (r.client c).inactivity now ≤ timeout))

/-- From every well-formed registry and every state of the topics, with at most a hundred clients
inactive for longer than the timeout, a sweep removes exactly these. -/
theorem clientManagerSweepInactive_exact (r : Registry) (h : r.WellFormed) (p : PubSub)
    (ops : List PubSubOp) (timeout : Int) (now : Nat)
    (hcount : {c | (∃ fd, r.byFd fd = some c) ∧
      timeout < (r.client c).inactivity now}.encard ≤ 100) :
    ∃ r' p', clientManagerSweepInactive r ((pubsubInit p).run ops) timeout now = some (r', p') ∧
      SweptExactly r r' ((pubsubInit p).run ops) p' timeout now := by
  have hnodup := h.nodup_expired timeout now
  have hmem : ∀ c, c ∈ {c | (∃ fd, r.byFd fd = some c) ∧
      timeout < (r.client c).inactivity now} ↔
        c ∈ (r.expiredEntries timeout now).map Prod.snd := by
    intro c
    rw [Set.mem_ofPred_eq, h.mem_expired_iff]
    refine and_congr_left' ⟨?_, fun hget => ⟨_, hget⟩⟩
    rintro ⟨fd, hget⟩
    exact h.back _ c hget
  have hfds := r.fds_scan timeout now
  have hbound : ∀ store ∈ (r.scan timeout now).stores, store.1 < maxRemovals := by
    rw [WorkList.forall_index_lt_iff, hfds, List.length_map]
    rw [encard_eq_length hnodup hmem] at hcount
    exact Nat.cast_le.mp hcount
  obtain ⟨hget, hclient⟩ := h.foldl_remove hnodup fun c hc => (h.mem_expired_iff.mp hc).1
  have harrays := (PubSub.ArraysNodup.pubsubInit p).run ops
  have hlists := harrays.lists_foldl_unsubscribeAll (r.scan timeout now).fds
  refine ⟨_, _, (if_pos hbound).trans (congrArg some (foldl_removeSwept _ _ _)), ?_, ?_, ?_⟩
  · intro key c
    rw [hfds, hget]
    refine and_congr_right fun hc => ?_
    rw [h.mem_expired_iff, and_iff_right (h.back key c hc), not_lt]
  · intro c hc
    rw [hfds]
    refine hclient c ?_
    rw [h.mem_expired_iff]
    rintro ⟨hreg, hlate⟩
    exact absurd hlate (not_lt.mpr (hc _ hreg))
  · rw [hlists]
    refine congrArg (fun f => List.map (Prod.map id (List.filter f)) _) ?_
    funext fd
    rw [Bool.eq_iff_iff, decide_eq_true_iff, h.notMem_fds_scan_iff, Option.all_eq_true]
    simp only [decide_eq_true_iff]

/-! ## Registries that calls reach -/

namespace Connections

variable {s s' : Connections}

/-- No entry leads to a client that was torn down. -/
def EntriesIdle (s : Connections) : Prop :=
  ∀ key c, s.registry.clientsMap.get key = some c → (s.client c).state = .idle

theorem EntriesIdle.step (h : s.EntriesIdle) (hsound : s.Sound) {call : RegistryCall}
    (hs : s.step call = some s') : s'.EntriesIdle := by
  intro key c hc
  cases move_of_step hs with
  | add fd now junk =>
    have hget := (Registry.get_add ..).symm.trans hc
    split at hget
    · obtain rfl := Option.some.inj hget
      exact congrArg Client.state (Registry.client_add_self ..)
    · have hold : c ≠ s.sections.nextConn := Nat.ne_of_lt (hsound.entries.made key c hget)
      exact (congrArg Client.state (Registry.client_add_of_ne _ hold _)).trans (h key c hget)
  | nobodyNamed hget => exact h key c hc
  | @named fd hostname d hget =>
    have hstate (r : Registry) :
        ((r.modify d (·.copyHostname hostname)).client c).state = (r.client c).state :=
      r.client_modify_eq (g := Client.state) d c fun _ => rfl
    refine (hstate _).trans ?_
    have hlead := (ChainTable.get_set ..).symm.trans hc
    split at hlead
    · obtain rfl := Option.some.inj hlead
      exact h _ d hget
    · exact h key c hlead
  | nobodyRemoved hget => exact h key c hc
  | @removed fd d hget =>
    have hne : c ≠ d := by
      rintro rfl
      exact hsound.get_dropEntries_ne hget key hc
    exact (congrArg Client.state (Registry.client_modify_of_ne _ hne _)).trans
      (h key c (Registry.get_of_get_dropEntries hc))

/-- The calls keep the invariant of the registry. -/
theorem wellFormed_of_reaches (h : Reaches step Admissible init s) : s.registry.WellFormed := by
  have hfaithful := faithful_of_reaches h
  have hidle : s.EntriesIdle := by
    induction h with
    | start =>
      intro key c hc
      cases (ChainTable.get_empty key).symm.trans hc
    | next hreach hok hs ih =>
      have hbefore := faithful_of_reaches hreach
      exact (ih hbefore).step hbefore.sound hs
  exact ⟨fun _ _ => hfaithful.sound.entry, hfaithful.tells.back, hidle⟩

end Connections

/-- A silent device and one that connected later, both subscribed. -/
def silentCalls : List RegistryCall :=
  [.add 5 0 .zero, .setHostname 5 (ascii "pump"), .add 6 50 .zero]

theorem clientManagerSweepInactive_exact_silent :
    ∃ s : Connections, Reaches Connections.step Connections.Admissible .init s ∧
      s.registry.byFd 5 = some 0 ∧ s.registry.byFd 6 = some 1 ∧
      ∃ r' p', clientManagerSweepInactive s.registry ((pubsubInit .static).run
          [.subscribe 5 (ascii "t"), .subscribe 6 (ascii "t")]) 60 61 = some (r', p') ∧
        r'.byFd 5 ≠ some 0 ∧ r'.byFd 6 = some 1 ∧ p'.lists = [(ascii "t", [6])] := by
  have hrun : (run (guarded Connections.step Connections.Admissible) .init silentCalls).map
      (fun s => (s.sections.nextConn, s.registry.byFd 5, s.registry.byFd 6,
        (s.client 0).lastActivity, (s.client 1).lastActivity)) =
      some (2, some 0, some 1, 0, 50) := by decide +kernel
  obtain ⟨s, hs, hproj⟩ := Option.map_eq_some_iff.mp hrun
  simp only [Prod.mk.injEq] at hproj
  obtain ⟨hnext, hfive, hsix, hsilent, hlate⟩ := hproj
  have hreach := reaches_of_run hs
  have hcount : {c | (∃ fd, s.registry.byFd fd = some c) ∧
      60 < (s.registry.client c).inactivity 61}.encard ≤ 100 := by
    have hsub : {c | (∃ fd, s.registry.byFd fd = some c) ∧
        60 < (s.registry.client c).inactivity 61} ⊆ ↑(Finset.range 2) := by
      rintro c ⟨⟨fd, hfd⟩, -⟩
      have hmade := (Connections.faithful_of_reaches hreach).sound.entries.made _ c hfd
      rw [hnext] at hmade
      exact Finset.mem_coe.mpr (Finset.mem_range.mpr hmade)
    refine (Set.encard_le_encard hsub).trans ?_
    rw [Set.encard_coe_eq_coe_finsetCard, Finset.card_range]
    decide
  obtain ⟨r', p', hsweep, hexact⟩ := clientManagerSweepInactive_exact s.registry
    (Connections.wellFormed_of_reaches hreach) .static
    [.subscribe 5 (ascii "t"), .subscribe 6 (ascii "t")] 60 61 hcount
  have hold : (s.registry.client 0).inactivity 61 = 61 := by
    rw [Client.inactivity]
    exact congrArg (fun t : Nat => (61 : Int) - t) hsilent
  have hnew : (s.registry.client 1).inactivity 61 = 11 := by
    rw [Client.inactivity]
    exact congrArg (fun t : Nat => (61 : Int) - t) hlate
  refine ⟨s, hreach, hfive, hsix, r', p', hsweep, ?_, ?_, ?_⟩
  · intro hget
    have hactive := ((hexact.entries _ 0).mp hget).2
    rw [hold] at hactive
    exact absurd hactive (by decide)
  · exact (hexact.entries _ 1).mpr ⟨hsix, hnew ▸ by decide⟩
  · have hlists : ((pubsubInit .static).run
        [.subscribe 5 (ascii "t"), .subscribe 6 (ascii "t")]).lists = [(ascii "t", [5, 6])] := by
      decide +kernel
    rw [hexact.topics, hlists]
    simp [hfive, hsix, hold, hnew]

end AdMQ
