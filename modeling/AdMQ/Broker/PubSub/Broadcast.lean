import AdMQ.Broker.Client.Dangling
import AdMQ.Broker.PubSub.Members
import AdMQ.Core.Sequence

/-!
# The order of publications

Any number of threads call the functions of `pubsub.c` while clients come and go.
`pubsub_publish` holds `pubsub_lock` during its whole loop and the mutex of one
client at a time; the other calls wait for `pubsub_lock`. Publications are numbered
by the order in which they take the lock. Every connection receives them in this
order and each at most once, as long as no client registers under the key of
another client's descriptor.
-/

namespace AdMQ

open Core

/-- Where a thread stands in `pubsub_publish`, with the publication's number and text and the
subscribers it has yet to serve. -/
inductive PublishPc where
  | idle
  /-- Before the next subscriber of the loop. -/
  | publishing (id : Nat) (text : CStr) (rest : List Int)
  /-- With the mutex of a client, before the text is written to it. -/
  | writing (id : Nat) (text : CStr) (c : ConnId) (rest : List Int)
  deriving DecidableEq

/-- The topic table, the registry and the threads, for threads of any kind. -/
structure Broadcast (ι : Type*) where
  topics : PubSub
  clients : Sections
  /-- The holder of `pubsub_lock` between the steps of its call. -/
  lock : Option ι
  pc : ι → PublishPc
  /-- The publications so far, in the order in which they took the lock. -/
  published : List (CStr × CStr)
  /-- What was written to a connection by publications: their numbers and texts. -/
  received : ConnId → List (Nat × CStr)

/-- A step of the system. -/
inductive BroadcastAct (ι : Type*) where
  /-- Enter a function of `pubsub.c`. All but `pubsub_publish` also leave it in this step. -/
  | call (t : ι) (op : PubSubOp)
  /-- `client_get_and_lock_by_fd` for the next subscriber. -/
  | lookup (t : ι)
  /-- Write to the client and unlock it. -/
  | write (t : ι)
  /-- Leave `pubsub_publish`. -/
  | unlock (t : ι)
  /-- A critical section of the client manager. -/
  | registry (a : SectionAct)
  /-- `SSL_new` for a client. -/
  | startSsl (c : ConnId)

/-- The client whose mutex a section of the client manager takes. -/
def SectionAct.mutex : SectionAct → Option ConnId
  | .writeName c _ => some c
  | .destroy c => some c
  | .add _ _ _ => none
  | .setName _ _ => none
  | .unregister _ => none

/-- The client whose mutex a thread holds in `pubsub_publish`. -/
def PublishPc.mutex : PublishPc → Option ConnId
  | .writing _ _ c _ => some c
  | .idle => none
  | .publishing _ _ _ => none

/-! ## Descriptors in the registry -/

/-- A descriptor key leads to the client that was made for the descriptor. -/
structure Sections.FdsSound (s : Sections) : Prop where
  made : ∀ n c, s.registry.byFd n = some c → c < s.nextConn
  fd : ∀ n c, s.registry.byFd n = some c → (s.registry.client c).fd = n
  /-- A client about to be destroyed is under no descriptor any more. -/
  gone : ∀ c ∈ s.removing, c < s.nextConn ∧ ∀ n, s.registry.byFd n ≠ some c

/-- Hostnames are no descriptor keys. -/
def SectionAct.NamePlain : SectionAct → Prop
  | .setName _ hostname => isFdKey hostname = false
  | .add _ _ _ => True
  | .writeName _ _ => True
  | .unregister _ => True
  | .destroy _ => True

theorem Sections.FdsSound.init : Sections.FdsSound .init := by
  constructor <;> simp [Sections.init, Registry.init, Registry.byFd, createTable]

/-- A section makes at most an entry for the new connection. -/
theorem Sections.byFd_of_move {s s' : Sections} {a : SectionAct} (hplain : a.NamePlain)
    (h : s.Move a s') {n : Int} {c : ConnId} (hc : s'.registry.byFd n = some c) :
    s.registry.byFd n = some c ∨ c = s.nextConn := by
  cases h with
  | add fd now junk =>
    rw [Registry.byFd, Registry.get_add] at hc
    split at hc
    next => exact Or.inr (Option.some.inj hc).symm
    next => exact Or.inl hc
  | setName hget =>
    rw [Registry.byFd, ChainTable.get_set, if_neg (ne_fdKey_of_not_isFdKey hplain n).symm] at hc
    exact Or.inl hc
  | unregister hget => exact Or.inl (Registry.get_of_get_dropEntries hc)
  | nobodyNamed | writeName | nobodyUnregistered | destroy => exact Or.inl hc

theorem Sections.nextConn_le_of_move {s s' : Sections} {a : SectionAct} (h : s.Move a s') :
    s.nextConn ≤ s'.nextConn := by
  cases h with
  | add => exact Nat.le_succ _
  | _ => exact Nat.le_refl _

/-- Sections that make no entry. -/
theorem Sections.FdsSound.of_entries {s s' : Sections} (h : s.FdsSound)
    (hnext : s'.nextConn = s.nextConn)
    (hentry : ∀ n c, s'.registry.byFd n = some c → s.registry.byFd n = some c)
    (hfd : ∀ n c, s'.registry.byFd n = some c →
      (s'.registry.client c).fd = (s.registry.client c).fd)
    (hgone : ∀ c ∈ s'.removing,
      c ∈ s.removing ∨ c < s.nextConn ∧ ∀ n, s'.registry.byFd n ≠ some c) : s'.FdsSound := by
  refine ⟨?_, ?_, ?_⟩
  · intro n c hc
    rw [hnext]
    exact h.made n c (hentry n c hc)
  · intro n c hc
    rw [hfd n c hc]
    exact h.fd n c (hentry n c hc)
  · intro c hc
    rw [hnext]
    rcases hgone c hc with hold | hnew
    · exact ⟨(h.gone c hold).1, fun n hn => (h.gone c hold).2 n (hentry n c hn)⟩
    · exact hnew

/-- A new connection is entered under its descriptor. -/
theorem Sections.FdsSound.add {s : Sections} (h : s.FdsSound) (fd : Int) (now : Nat)
    (junk : Junk) : Sections.FdsSound { s with
      registry := s.registry.add s.nextConn (.new fd now junk), nextConn := s.nextConn + 1 } := by
  have hget {n : Int} {c : ConnId}
      (hc : (s.registry.add s.nextConn (.new fd now junk)).byFd n = some c) :
      n = fd ∧ c = s.nextConn ∨ s.registry.byFd n = some c := by
    rw [Registry.byFd, Registry.get_add] at hc
    split at hc
    next heq => exact Or.inl ⟨fdKey_injective heq, (Option.some.inj hc).symm⟩
    next => exact Or.inr hc
  refine ⟨?_, ?_, ?_⟩
  · intro n c hc
    rcases hget hc with ⟨-, rfl⟩ | hold
    · exact Nat.lt_succ_self _
    · exact Nat.lt_succ_of_lt (h.made n c hold)
  · intro n c hc
    rcases hget hc with ⟨rfl, rfl⟩ | hold
    · rw [Registry.client_add_self]
      rfl
    · rw [Registry.client_add_of_ne _ (Nat.ne_of_lt (h.made n c hold))]
      exact h.fd n c hold
  · intro c hc
    obtain ⟨hlt, hnone⟩ := h.gone c hc
    refine ⟨Nat.lt_succ_of_lt hlt, fun n hn => ?_⟩
    rcases hget hn with ⟨-, rfl⟩ | hold
    · exact Nat.lt_irrefl _ hlt
    · exact hnone n hold

/-- Every section with a plain name keeps the descriptor entries sound. -/
theorem Sections.FdsSound.move {s s' : Sections} {a : SectionAct} (h : s.FdsSound)
    (hplain : a.NamePlain) (hmove : s.Move a s') : s'.FdsSound := by
  cases hmove with
  | add fd now junk => exact h.add fd now junk
  | nobodyNamed | nobodyUnregistered => exact h
  | setName hget =>
    refine h.of_entries rfl (fun n d hd => ?_) (fun _ _ _ => rfl) fun _ => Or.inl
    rw [Registry.byFd, ChainTable.get_set, if_neg (ne_fdKey_of_not_isFdKey hplain n).symm] at hd
    exact hd
  | @writeName c hostname hnaming =>
    refine h.of_entries rfl (fun _ _ hd => hd) (fun n d hd => ?_) fun _ => Or.inl
    exact Registry.client_modify_eq (f := (·.copyHostname hostname)) (g := Client.fd) _ _ _
      fun _ => rfl
  | unregister hget =>
    refine h.of_entries rfl (fun _ _ => Registry.get_of_get_dropEntries) (fun _ _ _ => rfl) ?_
    intro d hd
    rcases List.mem_cons.mp hd with rfl | hd
    · -- the client is under its own descriptor only, and that key is deleted
      refine Or.inr ⟨h.made _ _ hget, fun n hn => ?_⟩
      have hold := h.fd n d (Registry.get_of_get_dropEntries hn)
      exact Registry.get_dropEntries_ne
        (Or.inl (congrArg fdKey (hold.symm.trans (h.fd _ d hget)))) hn
    · exact Or.inl hd
  | @destroy c hremoving =>
    refine h.of_entries rfl (fun _ _ hd => hd) (fun n d hd => ?_)
      fun _ hd => Or.inl (List.mem_of_mem_erase hd)
    have hne : d ≠ c := fun heq => (h.gone c hremoving).2 n (heq ▸ hd)
    rw [Registry.client_modify_of_ne _ hne]

namespace Broadcast

variable {ι : Type*}

/-- The state after `pubsub_init` and `client_manager_init`. -/
def init : Broadcast ι where
  topics := pubsubInit .static
  clients := .init
  lock := none
  pc := fun _ => .idle
  published := []
  received := fun _ => []

/-- The registered clients. -/
def registry (s : Broadcast ι) : Registry := s.clients.registry

/-- The mutex of a client is held by the thread in `pubsub_publish`. -/
def Holds (s : Broadcast ι) (c : ConnId) : Prop := ∃ t ∈ s.lock, (s.pc t).mutex = some c

/-- A connection receives a publication. -/
def record (s : Broadcast ι) (c : ConnId) (id : Nat) (text : CStr) : Broadcast ι :=
  { s with received := Function.update s.received c (s.received c ++ [(id, text)]) }

/-- `SSL_write` with a session, otherwise `write` to a descriptor that is open. -/
def deliver (s : Broadcast ι) (c : ConnId) (id : Nat) (text : CStr) : Broadcast ι :=
  if (s.registry.client c).ssl = true ∨ 0 < (s.registry.client c).fd then s.record c id text
  else s

instance (s : Broadcast ι) (c : ConnId) : Decidable (s.Holds c) :=
  inferInstanceAs (Decidable (∃ t ∈ s.lock, (s.pc t).mutex = some c))

/-- No client registers under the key of a descriptor. -/
def PlainNames (_ : Broadcast ι) : BroadcastAct ι → Prop
  | .registry a => a.NamePlain
  | _ => True

/-- The numbers of the publications that a connection received. -/
def ids (s : Broadcast ι) (c : ConnId) : List Nat := (s.received c).map Prod.fst

section Steps

variable [DecidableEq ι] {s s' : Broadcast ι} {a : BroadcastAct ι}

/-- Put a thread to another point. -/
def goto (s : Broadcast ι) (t : ι) (p : PublishPc) : Broadcast ι :=
  { s with pc := Function.update s.pc t p }

/-- The effect of a call that has taken `pubsub_lock`. -/
def enter (s : Broadcast ι) (t : ι) : PubSubOp → Broadcast ι
  | .publish topic message =>
    let begun := { s with lock := some t, published := s.published ++ [(topic, message)] }
    begun.goto t (.publishing s.published.length (formattedMsg topic message)
      (s.topics.subscribersOf topic))
  | .subscribe fd topic => { s with topics := s.topics.step (.subscribe fd topic) }
  | .unsubscribe fd topic => { s with topics := s.topics.step (.unsubscribe fd topic) }
  | .unsubscribeAll fd => { s with topics := s.topics.step (.unsubscribeAll fd) }

/-- The effect of a step, if it is possible. -/
def step (s : Broadcast ι) : BroadcastAct ι → Option (Broadcast ι)
  | .call t op => if s.lock = none ∧ s.pc t = .idle then some (s.enter t op) else none
  | .lookup t =>
    match s.pc t with
    | .publishing id text (fd :: rest) =>
      match s.registry.byFd fd with
      | none => some (s.goto t (.publishing id text rest))
      | some c => some (s.goto t (.writing id text c rest))
    | _ => none
  | .write t =>
    match s.pc t with
    | .writing id text c rest => some ((s.deliver c id text).goto t (.publishing id text rest))
    | _ => none
  | .unlock t =>
    match s.pc t with
    | .publishing _ _ [] => some ({ s with lock := none }.goto t .idle)
    | _ => none
  | .registry a =>
    if ∃ c ∈ a.mutex, s.Holds c then none
    else (s.clients.step a).map fun clients => { s with clients := clients }
  | .startSsl c =>
    if s.Holds c then none
    else some { s with clients := { s.clients with
      registry := s.registry.modify c fun client => { client with ssl := true } } }

/-! ## What a step does -/

/-- Everything a step can do. -/
inductive Move (s : Broadcast ι) : BroadcastAct ι → Broadcast ι → Prop where
  | publish {t : ι} (topic message : CStr) (hfree : s.lock = none) :
      Move s (.call t (.publish topic message)) (s.enter t (.publish topic message))
  | change {t : ι} (op : PubSubOp) (hfree : s.lock = none) :
      Move s (.call t op) { s with topics := s.topics.step op }
  | skip {t : ι} {id : Nat} {text : CStr} {fd : Int} {rest : List Int}
      (hpc : s.pc t = .publishing id text (fd :: rest)) :
      Move s (.lookup t) (s.goto t (.publishing id text rest))
  | found {t : ι} {id : Nat} {text : CStr} {fd : Int} {rest : List Int} {c : ConnId}
      (hpc : s.pc t = .publishing id text (fd :: rest)) (hget : s.registry.byFd fd = some c) :
      Move s (.lookup t) (s.goto t (.writing id text c rest))
  | write {t : ι} {id : Nat} {text : CStr} {c : ConnId} {rest : List Int}
      (hpc : s.pc t = .writing id text c rest) :
      Move s (.write t) ((s.deliver c id text).goto t (.publishing id text rest))
  | unlock {t : ι} (hpc : s.pc t ≠ .idle) :
      Move s (.unlock t) ({ s with lock := none }.goto t .idle)
  | registry {a : SectionAct} {clients : Sections} (hs : s.clients.step a = some clients) :
      Move s (.registry a) { s with clients := clients }
  | startSsl (c : ConnId) :
      Move s (.startSsl c) { s with clients := { s.clients with
        registry := s.registry.modify c fun client => { client with ssl := true } } }

theorem move_of_step (h : s.step a = some s') : s.Move a s' := by
  cases a with
  | call t op =>
    simp only [step] at h
    split at h
    next hfree =>
      cases h
      cases op with
      | publish topic message => exact .publish topic message hfree.1
      | subscribe fd topic => exact .change _ hfree.1
      | unsubscribe fd topic => exact .change _ hfree.1
      | unsubscribeAll fd => exact .change _ hfree.1
    next => cases h
  | lookup t =>
    simp only [step] at h
    split at h
    next hpc =>
      split at h
      next =>
        cases h
        exact .skip hpc
      next hget =>
        cases h
        exact .found hpc hget
    next => cases h
  | write t =>
    simp only [step] at h
    split at h
    next hpc =>
      cases h
      exact .write hpc
    next => cases h
  | unlock t =>
    simp only [step] at h
    split at h
    next hpc =>
      cases h
      refine .unlock fun hidle => ?_
      rw [hidle] at hpc
      cases hpc
    next => cases h
  | registry a =>
    simp only [step] at h
    split at h
    next => cases h
    next =>
      obtain ⟨clients, hs, rfl⟩ := Option.map_eq_some_iff.mp h
      exact .registry hs
  | startSsl c =>
    simp only [step] at h
    split at h
    next => cases h
    next =>
      cases h
      exact .startSsl c

@[simp] theorem pc_goto_self (s : Broadcast ι) (t : ι) (p : PublishPc) : (s.goto t p).pc t = p :=
  Function.update_self ..

theorem pc_goto_of_ne (s : Broadcast ι) {t u : ι} (p : PublishPc) (h : u ≠ t) :
    (s.goto t p).pc u = s.pc u := Function.update_of_ne h ..

end Steps

/-! ## The invariant -/

variable {s s' : Broadcast ι}

/-- The text of the publication of some number. -/
def Text (published : List (CStr × CStr)) (id : Nat) (text : CStr) : Prop :=
  ∃ topic message, published[id]? = some (topic, message) ∧ text = formattedMsg topic message

/-- The publication under way is the latest one, and no descriptor that it has yet to serve
leads to a connection that it has served. -/
structure Underway (published : List (CStr × CStr)) (clients : Sections) (id : Nat) (text : CStr)
    (rest : List Int) (served : ConnId → Prop) : Prop where
  latest : id + 1 = published.length
  text : Text published id text
  nodup : rest.Nodup
  made : ∀ c, served c → c < clients.nextConn
  away : ∀ c, served c → ∀ fd ∈ rest, clients.registry.byFd fd ≠ some c

/-- What holds of a thread at a point of `pubsub_publish`. -/
def PointSound (s : Broadcast ι) : PublishPc → Prop
  | .idle => True
  | .publishing id text rest =>
    Underway s.published s.clients id text rest fun c => id ∈ s.ids c
  | .writing id text c rest =>
    id ∉ s.ids c ∧ Underway s.published s.clients id text rest fun d => d = c ∨ id ∈ s.ids d

/-- What every step keeps. -/
structure Ordered (s : Broadcast ι) : Prop where
  arrays : s.topics.ArraysNodup
  fds : s.clients.FdsSound
  /-- Only the holder of the lock is in `pubsub_publish`. -/
  locked : ∀ t, s.pc t ≠ .idle → s.lock = some t
  points : ∀ t, s.PointSound (s.pc t)
  order : ∀ c, InOrder (s.ids c) s.published.length
  texts : ∀ c, ∀ m ∈ s.received c, Text s.published m.1 m.2
  /-- Only connections that were made have received anything. -/
  made : ∀ c, ∀ i ∈ s.ids c, c < s.clients.nextConn

theorem Ordered.init : Ordered (init : Broadcast ι) where
  arrays := PubSub.ArraysNodup.pubsubInit _
  fds := Sections.FdsSound.init
  locked _ h := absurd rfl h
  points _ := trivial
  order _ := InOrder.nil 0
  texts _ _ h := absurd h List.not_mem_nil
  made _ _ h := absurd h List.not_mem_nil

theorem mem_received_record {c d : ConnId} {id : Nat} {text : CStr} {m : Nat × CStr} :
    m ∈ (s.record c id text).received d ↔ m ∈ s.received d ∨ d = c ∧ m = (id, text) := by
  by_cases hd : d = c
  · subst hd
    simp [record]
  · simp [record, hd]

theorem ids_record (s : Broadcast ι) (c : ConnId) (id : Nat) (text : CStr) (d : ConnId) :
    (s.record c id text).ids d = if d = c then s.ids d ++ [id] else s.ids d := by
  by_cases hd : d = c
  · subst hd
    simp [record, ids]
  · simp [record, ids, hd]

/-- While a thread is in `pubsub_publish`, no other one is. -/
theorem Ordered.others (h : s.Ordered) {t : ι} (ht : s.lock = some t ∨ s.lock = none) {u : ι}
    (hu : u ≠ t) : s.pc u = .idle := by
  by_contra hbusy
  have hlock := h.locked u hbusy
  rcases ht with ht | ht
  · exact hu (Option.some.inj (hlock.symm.trans ht))
  · rw [ht] at hlock
    cases hlock

variable {published : List (CStr × CStr)} {clients clients' : Sections} {id : Nat} {text : CStr}
  {fd : Int} {rest : List Int} {served served' : ConnId → Prop}

/-- Publications keep their numbers. -/
theorem Text.append (h : Text published id text) (more : List (CStr × CStr)) :
    Text (published ++ more) id text := by
  obtain ⟨topic, message, hget, htext⟩ := h
  refine ⟨topic, message, ?_, htext⟩
  rw [List.getElem?_append_left (List.getElem?_eq_some_iff.mp hget).1]
  exact hget

/-- The loop goes on to the next subscriber. -/
theorem Underway.tail (h : Underway published clients id text (fd :: rest) served) :
    Underway published clients id text rest served :=
  ⟨h.latest, h.text, h.nodup.of_cons, h.made,
    fun c hc n hn => h.away c hc n (List.mem_cons_of_mem _ hn)⟩

theorem Underway.mono (h : Underway published clients id text rest served)
    (hserved : ∀ c, served' c → served c) : Underway published clients id text rest served' :=
  ⟨h.latest, h.text, h.nodup, fun c hc => h.made c (hserved c hc),
    fun c hc => h.away c (hserved c hc)⟩

/-- Clients come and go meanwhile, but a connection never gets a further descriptor. -/
theorem Underway.of_entries (h : Underway published clients id text rest served)
    (hnext : clients.nextConn ≤ clients'.nextConn)
    (hentry : ∀ n c, clients'.registry.byFd n = some c →
      clients.registry.byFd n = some c ∨ c = clients.nextConn) :
    Underway published clients' id text rest served := by
  refine ⟨h.latest, h.text, h.nodup, fun c hc => Nat.lt_of_lt_of_le (h.made c hc) hnext, ?_⟩
  intro c hc n hn hget
  rcases hentry n c hget with hold | rfl
  · exact h.away c hc n hn hold
  · exact Nat.lt_irrefl _ (h.made _ hc)

/-- Changes in the registry that make at most an entry for a new connection. -/
theorem Ordered.of_entries (h : s.Ordered) (hfds : clients.FdsSound)
    (hnext : s.clients.nextConn ≤ clients.nextConn)
    (hentry : ∀ n c, clients.registry.byFd n = some c →
      s.registry.byFd n = some c ∨ c = s.clients.nextConn) :
    Ordered { s with clients := clients } := by
  refine ⟨h.arrays, hfds, h.locked, ?_, h.order, h.texts,
    fun c i hi => Nat.lt_of_lt_of_le (h.made c i hi) hnext⟩
  intro t
  have hpoint := h.points t
  change PointSound _ (s.pc t)
  cases hpc : s.pc t with
  | idle => trivial
  | publishing id text rest =>
    rw [hpc] at hpoint
    exact Underway.of_entries hpoint hnext hentry
  | writing id text c rest =>
    rw [hpc] at hpoint
    exact ⟨hpoint.1, Underway.of_entries hpoint.2 hnext hentry⟩

variable [DecidableEq ι]

/-- A fact about all threads after one has moved, when the others are idle. -/
theorem forall_pc_goto {P : PublishPc → Prop} {t : ι} {p : PublishPc} (hidle : P .idle)
    (hothers : ∀ u, u ≠ t → s.pc u = .idle) (hp : P p) (u : ι) : P ((s.goto t p).pc u) := by
  by_cases hu : u = t
  · rw [hu, pc_goto_self]
    exact hp
  · rw [pc_goto_of_ne _ _ hu, hothers u hu]
    exact hidle

theorem Ordered.locked_goto (h : s.Ordered) {t : ι} (ht : s.pc t ≠ .idle) {p : PublishPc} (u : ι)
    (hu : (s.goto t p).pc u ≠ .idle) : s.lock = some u := by
  by_cases hut : u = t
  · rw [hut]
    exact h.locked t ht
  · rw [pc_goto_of_ne _ _ hut] at hu
    exact h.locked u hu

theorem pointSound_goto {t : ι} {p q : PublishPc} : (s.goto t p).PointSound q ↔ s.PointSound q := by
  cases q <;> rfl

/-- The holder of the lock goes on, and nothing but its point changes. -/
theorem Ordered.goto (h : s.Ordered) {t : ι} {p : PublishPc} (ht : s.pc t ≠ .idle)
    (hp : s.PointSound p) : (s.goto t p).Ordered := by
  refine ⟨h.arrays, h.fds, h.locked_goto ht, ?_, h.order, h.texts, h.made⟩
  exact forall_pc_goto (P := (s.goto t p).PointSound) trivial
    (fun u => h.others (Or.inl (h.locked t ht))) (pointSound_goto.mpr hp)

/-- A publication begins: its number is new to every connection. -/
theorem Ordered.publish (h : s.Ordered) (hfree : s.lock = none) (t : ι) (topic message : CStr) :
    (s.enter t (.publish topic message)).Ordered := by
  have hlen : (s.published ++ [(topic, message)]).length = s.published.length + 1 := by simp
  have hothers : ∀ u, u ≠ t → s.pc u = .idle := fun u => h.others (Or.inr hfree)
  have hnew (c : ConnId) : s.published.length ∉ s.ids c := fun hmem =>
    Nat.lt_irrefl _ ((h.order c).below _ hmem)
  have hpoint : Underway (s.published ++ [(topic, message)]) s.clients s.published.length
      (formattedMsg topic message) (s.topics.subscribersOf topic)
      fun c => s.published.length ∈ s.ids c := by
    refine ⟨hlen.symm, ⟨topic, message, ?_, rfl⟩, h.arrays.subscribersOf topic, ?_, ?_⟩
    · exact List.getElem?_concat_length
    · exact fun c hc => absurd hc (hnew c)
    · exact fun c hc => absurd hc (hnew c)
  refine ⟨h.arrays, h.fds, ?_, ?_, ?_, ?_, h.made⟩
  · intro u hu
    by_cases hut : u = t
    · rw [hut]
      rfl
    · exact absurd ((pc_goto_of_ne _ _ hut).trans (hothers u hut)) hu
  · exact forall_pc_goto (P := (s.enter t (.publish topic message)).PointSound) trivial hothers
      hpoint
  · exact fun c => (h.order c).mono (Nat.le_trans (Nat.le_succ _) hlen.ge)
  · exact fun c m hm => (h.texts c m hm).append _

/-- The next subscriber leads to a connection that the publication has not served. -/
theorem Ordered.found (h : s.Ordered) {t : ι} {c : ConnId}
    (hpc : s.pc t = .publishing id text (fd :: rest)) (hget : s.registry.byFd fd = some c) :
    (s.goto t (.writing id text c rest)).Ordered := by
  have hpoint := h.points t
  rw [hpc] at hpoint
  refine h.goto (by simp [hpc]) ⟨?_, hpoint.latest, hpoint.text, hpoint.nodup.of_cons, ?_, ?_⟩
  · exact fun hserved => hpoint.away c hserved fd List.mem_cons_self hget
  · rintro d (rfl | hd)
    · exact h.fds.made fd d hget
    · exact hpoint.made d hd
  · rintro d (rfl | hd) n hn
    · -- the connection has one descriptor, and the list holds it once
      intro hn'
      have hfd : n = fd := (h.fds.fd n d hn').symm.trans (h.fds.fd fd d hget)
      exact (List.nodup_cons.mp hpoint.nodup).1 (hfd ▸ hn)
    · exact hpoint.away d hd n (List.mem_cons_of_mem _ hn)

/-- The text is written, and the connection counts as served. -/
theorem Ordered.write (h : s.Ordered) {t : ι} {c : ConnId}
    (hpc : s.pc t = .writing id text c rest) :
    ((s.deliver c id text).goto t (.publishing id text rest)).Ordered := by
  have hbusy : s.pc t ≠ .idle := by simp [hpc]
  have hpoint := h.points t
  rw [hpc] at hpoint
  obtain ⟨hnew, hway⟩ := hpoint
  rw [deliver]
  split
  · have hids (i : Nat) (d : ConnId) (hi : i ∈ (s.record c id text).ids d) :
        i ∈ s.ids d ∨ d = c ∧ i = id := by
      rw [ids_record] at hi
      split at hi
      next hd => exact (List.mem_append.mp hi).imp_right fun hi => ⟨hd, List.mem_singleton.mp hi⟩
      next => exact Or.inl hi
    refine ⟨h.arrays, h.fds, h.locked_goto hbusy, ?_, ?_, ?_, ?_⟩
    · refine forall_pc_goto (P := ((s.record c id text).goto t _).PointSound) trivial
        (fun u => h.others (Or.inl (h.locked t hbusy))) ?_
      exact hway.mono fun d hd => (hids id d hd).symm.imp_left And.left
    · intro d
      change InOrder ((s.record c id text).ids d) s.published.length
      rw [ids_record]
      split
      next hd =>
        rw [hd, ← hway.latest]
        exact InOrder.concat (hway.latest ▸ h.order c) hnew
      next => exact h.order d
    · intro d m hm
      rcases mem_received_record.mp hm with hm | ⟨-, rfl⟩
      · exact h.texts d m hm
      · exact hway.text
    · intro d i hi
      rcases hids i d hi with hi | ⟨rfl, -⟩
      · exact h.made d i hi
      · exact hway.made d (Or.inl rfl)
  · exact h.goto hbusy (hway.mono fun d => Or.inr)

/-- The loop ends and the lock is free again. -/
theorem Ordered.unlock (h : s.Ordered) {t : ι} (hpc : s.pc t ≠ .idle) :
    ({ s with lock := none }.goto t .idle).Ordered := by
  have hothers : ∀ u, u ≠ t → s.pc u = .idle := fun u => h.others (Or.inl (h.locked t hpc))
  have hidle (u : ι) : ({ s with lock := none }.goto t .idle).pc u = .idle :=
    forall_pc_goto (s := { s with lock := none }) (P := (· = .idle)) rfl hothers rfl u
  refine ⟨h.arrays, h.fds, fun u hu => absurd (hidle u) hu, ?_, h.order, h.texts, h.made⟩
  intro u
  rw [hidle u]
  trivial

/-- Every step keeps the order, if no name is a descriptor key. -/
theorem Ordered.step {a : BroadcastAct ι} (h : s.Ordered) (hok : s.PlainNames a)
    (hs : s.step a = some s') : s'.Ordered := by
  cases move_of_step hs with
  | publish topic message hfree => exact h.publish hfree _ topic message
  | change op hfree =>
    refine ⟨h.arrays.step op, h.fds, h.locked, ?_, h.order, h.texts, h.made⟩
    intro u
    have hidle : s.pc u = .idle := by
      by_contra hbusy
      cases hfree.symm.trans (h.locked u hbusy)
    exact hidle ▸ trivial
  | @skip t _ _ _ _ hpc =>
    have hpoint := h.points t
    rw [hpc] at hpoint
    exact h.goto (by simp [hpc]) hpoint.tail
  | found hpc hget => exact h.found hpc hget
  | write hpc => exact h.write hpc
  | unlock hpc => exact h.unlock hpc
  | registry hsection =>
    have hmove := Sections.move_of_step hsection
    exact h.of_entries (h.fds.move hok hmove) (Sections.nextConn_le_of_move hmove)
      fun n c => Sections.byFd_of_move hok hmove
  | startSsl c =>
    refine h.of_entries (h.fds.of_entries rfl (fun _ _ hd => hd) ?_ fun _ => Or.inl)
      (Nat.le_refl _) fun _ _ => Or.inl
    intro n d hd
    exact Registry.client_modify_eq (f := fun client => { client with ssl := true })
      (g := Client.fd) _ _ _ fun _ => rfl

/-- Total order: in every run in which no client takes the key of a descriptor as its name,
every connection has received a subsequence of the publications in the order in which they took
`pubsub_lock`, each with its own text, and any two connections agree about the order of what
both received. -/
theorem total_order (s : Broadcast ι) (h : Reaches step PlainNames init s) :
    (∀ c, (s.ids c).Sublist (List.range s.published.length)) ∧
    (∀ c, ∀ m ∈ s.received c, Text s.published m.1 m.2) ∧
    ∀ c d, (s.ids c).filter (· ∈ s.ids d) = (s.ids d).filter (· ∈ s.ids c) := by
  have hinv : s.Ordered := h.invariant Ordered.init fun _ _ _ hi hok hs => hi.step hok hs
  refine ⟨fun c => (hinv.order c).sublist_range, hinv.texts, ?_⟩
  exact fun c d => (hinv.order c).filter_mem_comm (hinv.order d)

/-! ## Runs -/

instance (s : Broadcast ι) (a : BroadcastAct ι) : Decidable (s.PlainNames a) :=
  match a with
  | .registry (.setName _ hostname) => inferInstanceAs (Decidable (isFdKey hostname = false))
  | .registry (.add _ _ _) => isTrue trivial
  | .registry (.writeName _ _) => isTrue trivial
  | .registry (.unregister _) => isTrue trivial
  | .registry (.destroy _) => isTrue trivial
  | .call _ _ => isTrue trivial
  | .lookup _ => isTrue trivial
  | .write _ => isTrue trivial
  | .unlock _ => isTrue trivial
  | .startSsl _ => isTrue trivial

/-- Two connections on the descriptors 5 and 7. -/
def twoConnections : List (BroadcastAct Nat) :=
  [.registry (.add 5 0 .zero), .registry (.add 7 0 .zero)]

/-- A publication to all subscribers of a topic, of whom there are so many. -/
def publishActs (t : Nat) (topic message : CStr) (subscribers : Nat) : List (BroadcastAct Nat) :=
  .call t (.publish topic message) ::
    (List.replicate subscribers [.lookup t, .write t]).flatten ++ [.unlock t]

/-- The second connection subscribes between two publications. -/
def lateActs : List (BroadcastAct Nat) :=
  twoConnections ++ [.call 0 (.subscribe 5 (ascii "news"))] ++
    publishActs 0 (ascii "news") (ascii "a") 1 ++ [.call 1 (.subscribe 7 (ascii "news"))] ++
    publishActs 1 (ascii "news") (ascii "b") 2

theorem total_order_lateActs :
    ∃ s : Broadcast Nat, Reaches step PlainNames init s ∧
      s.ids 0 = [0, 1] ∧ s.ids 1 = [1] ∧
      (s.ids 0).filter (· ∈ s.ids 1) = (s.ids 1).filter (· ∈ s.ids 0) := by
  have hrun : (run (guarded step PlainNames) init lateActs).map
      (fun s : Broadcast Nat => (s.ids 0, s.ids 1)) = some ([0, 1], [1]) := by decide +kernel
  obtain ⟨s, hs, hproj⟩ := Option.map_eq_some_iff.mp hrun
  obtain ⟨hfirst, hsecond⟩ := Prod.mk.inj hproj
  have hreach := reaches_of_run hs
  exact ⟨s, hreach, hfirst, hsecond, (total_order s hreach).2.2 0 1⟩

/-- The first connection takes the descriptor key of the second as its name. -/
def namesakeActs : List (BroadcastAct Nat) :=
  twoConnections ++
    [.call 0 (.subscribe 5 (ascii "news")), .call 0 (.subscribe 7 (ascii "news")),
      .registry (.setName 5 (ascii "fd:7")), .registry (.writeName 0 (ascii "fd:7"))] ++
    publishActs 0 (ascii "news") (ascii "a") 2

/-- Then it receives the publication once for each of the two descriptors. -/
theorem received_twice_namesakeActs :
    ∃ s : Broadcast Nat, Reaches step (fun _ _ => True) init s ∧
      s.published = [(ascii "news", ascii "a")] ∧ s.ids 0 = [0, 0] ∧ s.ids 1 = [] ∧
      ¬ (s.ids 0).Sublist (List.range s.published.length) := by
  have hrun : (run (guarded step fun _ _ => True) init namesakeActs).map
      (fun s : Broadcast Nat => (s.published, s.ids 0, s.ids 1)) =
        some ([(ascii "news", ascii "a")], [0, 0], []) := by decide +kernel
  obtain ⟨s, hs, hproj⟩ := Option.map_eq_some_iff.mp hrun
  obtain ⟨hpub, hproj⟩ := Prod.mk.inj hproj
  obtain ⟨hfirst, hsecond⟩ := Prod.mk.inj hproj
  refine ⟨s, reaches_of_run hs, hpub, hfirst, hsecond, ?_⟩
  rw [hpub, hfirst]
  decide

end Broadcast

end AdMQ
