import AdMQ.Broker.Client.Registry
import AdMQ.Core.Transition
import Mathlib.Data.List.Nodup

/-!
# Entries of destroyed clients

Any number of threads run `client_add`, `client_set_hostname` and
`client_remove`; the last two consist of a section on the map and a later
section on the client. `client_remove` finds the hostname entry through the
hostname field, which `client_set_hostname` writes only in its second section.
A removal that falls between the two leaves the entry behind. If none does, the
map never leads to a destroyed client.
-/

namespace AdMQ

open Core

/-- The registry and the calls that are between their two sections. -/
structure Sections where
  registry : Registry
  nextConn : ConnId
  /-- Calls of `client_set_hostname` that have yet to write the field. -/
  naming : List (ConnId × CStr)
  /-- Calls of `client_remove` that have yet to destroy the client. -/
  removing : List ConnId
  /-- Clients that `client_remove` has destroyed. -/
  destroyed : List ConnId
  /-- Connections for which a hostname was set. -/
  named : List ConnId

/-- The registry after `client_manager_init`, with no call under way. -/
def Sections.init : Sections := ⟨.init, 0, [], [], [], []⟩

/-- One critical section of one call. -/
inductive SectionAct where
  | add (fd : Int) (now : Nat) (junk : Junk)
  | setName (fd : Int) (hostname : CStr)
  | writeName (c : ConnId) (hostname : CStr)
  | unregister (fd : Int)
  | destroy (c : ConnId)

/-- The effect of a critical section. -/
def Sections.step (s : Sections) : SectionAct → Option Sections
  | .add fd now junk => some { s with
      registry := s.registry.add s.nextConn (.new fd now junk)
      nextConn := s.nextConn + 1 }
  | .setName fd hostname =>
    match s.registry.setName fd hostname with
    | (none, _) => some s
    | (some c, r) => some { s with
        registry := r
        naming := (c, hostname) :: s.naming
        named := c :: s.named }
  | .writeName c hostname =>
    if (c, hostname) ∈ s.naming then some { s with
      registry := s.registry.modify c (·.copyHostname hostname)
      naming := s.naming.erase (c, hostname) }
    else none
  | .unregister fd =>
    match s.registry.unregister fd with
    | (none, _) => some s
    | (some c, r) => some { s with registry := r, removing := c :: s.removing }
  | .destroy c =>
    if c ∈ s.removing then some { s with
      registry := s.registry.modify c Client.tornDown
      removing := s.removing.erase c
      destroyed := c :: s.destroyed }
    else none

/-- Everything a critical section can do. -/
inductive Sections.Move (s : Sections) : SectionAct → Sections → Prop where
  | add (fd : Int) (now : Nat) (junk : Junk) :
      Move s (.add fd now junk) { s with
        registry := s.registry.add s.nextConn (.new fd now junk), nextConn := s.nextConn + 1 }
  | nobodyNamed {fd : Int} {hostname : CStr} (hget : s.registry.byFd fd = none) :
      Move s (.setName fd hostname) s
  | setName {fd : Int} {hostname : CStr} {c : ConnId} (hget : s.registry.byFd fd = some c) :
      Move s (.setName fd hostname) { s with
        registry := { s.registry with clientsMap := s.registry.clientsMap.set hostname c }
        naming := (c, hostname) :: s.naming
        named := c :: s.named }
  | writeName {c : ConnId} {hostname : CStr} (hnaming : (c, hostname) ∈ s.naming) :
      Move s (.writeName c hostname) { s with
        registry := s.registry.modify c (·.copyHostname hostname)
        naming := s.naming.erase (c, hostname) }
  | nobodyUnregistered {fd : Int} (hget : s.registry.byFd fd = none) :
      Move s (.unregister fd) s
  | unregister {fd : Int} {c : ConnId} (hget : s.registry.byFd fd = some c) :
      Move s (.unregister fd) { s with
        registry := { s.registry with clientsMap := s.registry.dropEntries fd c }
        removing := c :: s.removing }
  | destroy {c : ConnId} (hremoving : c ∈ s.removing) :
      Move s (.destroy c) { s with
        registry := s.registry.modify c Client.tornDown
        removing := s.removing.erase c
        destroyed := c :: s.destroyed }

theorem Sections.move_of_step {s s' : Sections} {a : SectionAct} (h : s.step a = some s') :
    s.Move a s' := by
  cases a with
  | add fd now junk =>
    cases h
    exact .add fd now junk
  | setName fd hostname =>
    simp only [Sections.step, Registry.setName] at h
    cases hget : s.registry.byFd fd with
    | none =>
      rw [hget] at h
      cases h
      exact .nobodyNamed hget
    | some c =>
      rw [hget] at h
      cases h
      exact .setName hget
  | writeName c hostname =>
    simp only [Sections.step] at h
    split at h
    next hnaming =>
      cases h
      exact .writeName hnaming
    next => cases h
  | unregister fd =>
    simp only [Sections.step, Registry.unregister] at h
    cases hget : s.registry.byFd fd with
    | none =>
      rw [hget] at h
      cases h
      exact .nobodyUnregistered hget
    | some c =>
      rw [hget] at h
      cases h
      exact .unregister hget
  | destroy c =>
    simp only [Sections.step] at h
    split at h
    next hremoving =>
      cases h
      exact .destroy hremoving
    next => cases h

/-- Hostnames fit their field, are no descriptor keys, and are set once for a connection. -/
def NamesAdmissible (s : Sections) : SectionAct → Prop
  | .setName fd hostname => (1 ≤ hostname.length ∧ hostname.length ≤ 126) ∧
      isFdKey hostname = false ∧ ∀ c ∈ s.registry.byFd fd, c ∉ s.named
  | _ => True

/-- No client is unregistered while a call that names it is between its two sections. -/
def RemovalSeparated (s : Sections) : SectionAct → Prop
  | .unregister fd => ∀ c ∈ s.registry.byFd fd, c ∉ s.naming.map Prod.fst
  | _ => True

/-- No entry of the map leads to a destroyed client. -/
def NoDanglingEntry (s : Sections) : Prop :=
  ∀ key c, s.registry.clientsMap.get key = some c → c ∉ s.destroyed

instance (s : Sections) (a : SectionAct) : Decidable (NamesAdmissible s a) := by
  cases a with
  | setName fd hostname => exact inferInstanceAs (Decidable (_ ∧ _ ∧ _))
  | _ => exact isTrue trivial

/-! ## The invariant -/

/-- What the entries of the map say about their clients. -/
structure EntriesSound (s : Sections) : Prop where
  /-- Every client in sight has been made. -/
  made : ∀ key c, s.registry.clientsMap.get key = some c → c < s.nextConn
  madeGone : ∀ c, c ∈ s.removing ∨ c ∈ s.destroyed → c < s.nextConn
  /-- An entry is the descriptor's, or a hostname that is in the field or about to be. -/
  entry : ∀ key c, s.registry.clientsMap.get key = some c →
    key = fdKey (s.registry.client c).fd ∨ (isFdKey key = false ∧ key ≠ [] ∧
      (key = (s.registry.client c).hostname ∨ (c, key) ∈ s.naming))
  /-- Clients in the map are neither destroyed nor about to be. -/
  live : ∀ key c, s.registry.clientsMap.get key = some c → c ∉ s.removing ∧ c ∉ s.destroyed
  /-- A name about to be written fits its field, which is still empty. -/
  pending : ∀ c hostname, (c, hostname) ∈ s.naming → hostname.length < 127 ∧ c ∈ s.named ∧
    (s.registry.client c).hostname = []
  pendingOnce : (s.naming.map Prod.fst).Nodup
  /-- A connection without a name has an empty field. -/
  unnamed : ∀ c, c ∉ s.named → (s.registry.client c).hostname = []

theorem EntriesSound.init : EntriesSound .init := by
  refine ⟨?_, ?_, ?_, ?_, ?_, ?_, ?_⟩ <;>
    simp [Sections.init, Registry.init, createTable, Client.new]

/-- The key of a client's descriptor is the only descriptor key that leads to it. -/
theorem EntriesSound.fd_eq {s : Sections} (h : EntriesSound s) {fd : Int} {c : ConnId}
    (hc : s.registry.byFd fd = some c) : (s.registry.client c).fd = fd := by
  rcases h.entry _ _ hc with he | ⟨hf, -⟩
  · exact (fdKey_injective he).symm
  · rw [isFdKey_fdKey] at hf
    cases hf

/-- A new client gets the entry of its descriptor. -/
theorem EntriesSound.add {s : Sections} (h : EntriesSound s) (fd : Int) (now : Nat) (junk : Junk) :
    EntriesSound { s with
      registry := s.registry.add s.nextConn (.new fd now junk), nextConn := s.nextConn + 1 } := by
  have hget (key : CStr) (c : ConnId)
      (hc : (s.registry.clientsMap.set (fdKey fd) s.nextConn).get key = some c) :
      key = fdKey fd ∧ c = s.nextConn ∨
        c ≠ s.nextConn ∧ s.registry.clientsMap.get key = some c := by
    rw [ChainTable.get_set] at hc
    split at hc
    · next he => exact Or.inl ⟨he, (Option.some.inj hc).symm⟩
    · exact Or.inr ⟨Nat.ne_of_lt (h.made key c hc), hc⟩
  have hold {c : ConnId} (hne : c ≠ s.nextConn) :
      (s.registry.add s.nextConn (.new fd now junk)).client c = s.registry.client c :=
    Function.update_of_ne hne ..
  have hnew : (s.registry.add s.nextConn (.new fd now junk)).client s.nextConn =
      .new fd now junk := Function.update_self ..
  refine ⟨?_, fun c hc => Nat.lt_succ_of_lt (h.madeGone c hc), ?_, ?_, ?_, h.pendingOnce, ?_⟩
  · intro key c hc
    rcases hget key c hc with ⟨-, rfl⟩ | ⟨-, hc⟩
    · exact Nat.lt_succ_self _
    · exact Nat.lt_succ_of_lt (h.made key c hc)
  · intro key c hc
    rcases hget key c hc with ⟨rfl, rfl⟩ | ⟨hne, hc⟩
    · left
      simp only [hnew]
      rfl
    · simp only [hold hne]
      exact h.entry key c hc
  · intro key c hc
    rcases hget key c hc with ⟨-, rfl⟩ | ⟨-, hc⟩
    · exact ⟨fun hm => Nat.lt_irrefl _ (h.madeGone _ (Or.inl hm)),
        fun hm => Nat.lt_irrefl _ (h.madeGone _ (Or.inr hm))⟩
    · exact h.live key c hc
  · intro c hostname hc
    obtain ⟨hlen, hnamed, hempty⟩ := h.pending c hostname hc
    refine ⟨hlen, hnamed, ?_⟩
    by_cases hne : c = s.nextConn
    · subst hne
      simp only [hnew]
      rfl
    · simp only [hold hne]
      exact hempty
  · intro c hc
    by_cases hne : c = s.nextConn
    · subst hne
      simp only [hnew]
      rfl
    · simp only [hold hne]
      exact h.unnamed c hc

/-- A name is entered for a client that is in the map and has no name yet. -/
theorem EntriesSound.setName {s : Sections} (h : EntriesSound s) {fd : Int} {c : ConnId}
    {hostname : CStr} (hc : s.registry.byFd fd = some c)
    (hname : (1 ≤ hostname.length ∧ hostname.length ≤ 126) ∧ isFdKey hostname = false)
    (hfresh : c ∉ s.named) :
    EntriesSound { s with
      registry := { s.registry with clientsMap := s.registry.clientsMap.set hostname c }
      naming := (c, hostname) :: s.naming
      named := c :: s.named } := by
  have hget (key : CStr) (d : ConnId)
      (hd : (s.registry.clientsMap.set hostname c).get key = some d) :
      key = hostname ∧ d = c ∨ s.registry.clientsMap.get key = some d := by
    rw [ChainTable.get_set] at hd
    split at hd
    · next he => exact Or.inl ⟨he, (Option.some.inj hd).symm⟩
    · exact Or.inr hd
  have hne : hostname ≠ [] := List.length_pos_iff.mp hname.1.1
  refine ⟨?_, h.madeGone, ?_, ?_,
    ?_, ?_, fun d hd => h.unnamed d fun hm => hd (List.mem_cons_of_mem _ hm)⟩
  · intro key d hd
    rcases hget key d hd with ⟨-, rfl⟩ | hd
    · exact h.made _ _ hc
    · exact h.made key d hd
  · intro key d hd
    rcases hget key d hd with ⟨rfl, rfl⟩ | hd
    · exact Or.inr ⟨hname.2, hne, Or.inr (List.mem_cons_self ..)⟩
    · rcases h.entry key d hd with he | ⟨hf, hk, he | he⟩
      · exact Or.inl he
      · exact Or.inr ⟨hf, hk, Or.inl he⟩
      · exact Or.inr ⟨hf, hk, Or.inr (List.mem_cons_of_mem _ he)⟩
  · intro key d hd
    rcases hget key d hd with ⟨-, rfl⟩ | hd
    · exact h.live _ _ hc
    · exact h.live key d hd
  · intro d name hd
    rcases List.mem_cons.mp hd with he | hd
    · obtain ⟨rfl, rfl⟩ := Prod.mk.inj he
      exact ⟨by omega, List.mem_cons_self .., h.unnamed _ hfresh⟩
    · obtain ⟨hlen, hnamed, hempty⟩ := h.pending d name hd
      exact ⟨hlen, List.mem_cons_of_mem _ hnamed, hempty⟩
  · refine List.nodup_cons.mpr ⟨?_, h.pendingOnce⟩
    intro hm
    obtain ⟨⟨d, name⟩, hd, rfl⟩ := List.mem_map.mp hm
    exact hfresh (h.pending d name hd).2.1

/-- Writing the name moves it from the pending calls into the field. -/
theorem EntriesSound.writeName {s : Sections} (h : EntriesSound s) {c : ConnId} {hostname : CStr}
    (hc : (c, hostname) ∈ s.naming) :
    EntriesSound { s with
      registry := s.registry.modify c (·.copyHostname hostname)
      naming := s.naming.erase (c, hostname) } := by
  obtain ⟨hlen, hnamed, hempty⟩ := h.pending c hostname hc
  have honly (name : CStr) (hm : (c, name) ∈ s.naming) : name = hostname :=
    congrArg Prod.snd (List.inj_on_of_nodup_map h.pendingOnce hm hc rfl)
  have hgone (name : CStr) : (c, name) ∉ s.naming.erase (c, hostname) := by
    intro hm
    have hname := honly name (List.mem_of_mem_erase hm)
    subst hname
    exact h.pendingOnce.of_map.not_mem_erase hm
  have hself : (s.registry.modify c (·.copyHostname hostname)).client c =
      (s.registry.client c).copyHostname hostname := Registry.client_modify_self ..
  have hother {d : ConnId} (hne : d ≠ c) :
      (s.registry.modify c (·.copyHostname hostname)).client d = s.registry.client d :=
    Registry.client_modify_of_ne _ hne _
  refine ⟨h.made, h.madeGone, ?_, h.live, ?_, ?_, ?_⟩
  · intro key d hd
    by_cases hdc : d = c
    · subst hdc
      simp only [hself, Client.hostname_copyHostname _ hlen]
      rcases h.entry key d hd with he | ⟨hf, hk, he | he⟩
      · exact Or.inl he
      · exact absurd (he.trans hempty) hk
      · exact Or.inr ⟨hf, hk, Or.inl (honly key he)⟩
    · simp only [hother hdc]
      rcases h.entry key d hd with he | ⟨hf, hk, he | he⟩
      · exact Or.inl he
      · exact Or.inr ⟨hf, hk, Or.inl he⟩
      · refine Or.inr ⟨hf, hk, Or.inr ((List.mem_erase_of_ne fun heq => hdc ?_).mpr he)⟩
        exact congrArg Prod.fst heq
  · intro d name hd
    have hdc : d ≠ c := by
      rintro rfl
      exact hgone name hd
    simp only [hother hdc]
    exact h.pending d name (List.mem_of_mem_erase hd)
  · exact (List.erase_sublist.map _).nodup h.pendingOnce
  · intro d hd
    have hdc : d ≠ c := by
      rintro rfl
      exact hd hnamed
    simp only [hother hdc]
    exact h.unnamed d hd

/-- A removal outside the two sections of a naming call leaves no entry of the client. -/
theorem EntriesSound.unregister {s : Sections} (h : EntriesSound s) {fd : Int} {c : ConnId}
    (hc : s.registry.byFd fd = some c) (hsep : c ∉ s.naming.map Prod.fst) :
    EntriesSound { s with
      registry := { s.registry with clientsMap := s.registry.dropEntries fd c }
      removing := c :: s.removing } := by
  have hold {key : CStr} {d : ConnId} (hd : (s.registry.dropEntries fd c).get key = some d) :
      s.registry.clientsMap.get key = some d := Registry.get_of_get_dropEntries hd
  have hgone (key : CStr) : (s.registry.dropEntries fd c).get key ≠ some c := by
    intro hd
    rcases h.entry key c (hold hd) with he | ⟨-, hk, he | he⟩
    · rw [h.fd_eq hc] at he
      exact Registry.get_dropEntries_ne (Or.inl he) hd
    · exact Registry.get_dropEntries_ne (Or.inr ⟨he, hk⟩) hd
    · exact hsep (List.mem_map_of_mem he)
  refine ⟨fun key d hd => h.made key d (hold hd), ?_,
    fun key d hd => h.entry key d (hold hd), ?_, h.pending, h.pendingOnce,
    h.unnamed⟩
  · intro d hd
    rcases hd with hd | hd
    · rcases List.mem_cons.mp hd with rfl | hd
      · exact h.made _ _ hc
      · exact h.madeGone d (Or.inl hd)
    · exact h.madeGone d (Or.inr hd)
  · intro key d hd
    obtain ⟨hr, hds⟩ := h.live key d (hold hd)
    refine ⟨?_, hds⟩
    intro hm
    rcases List.mem_cons.mp hm with rfl | hm
    · exact hgone key hd
    · exact hr hm

/-- Destroying a client that is in no entry changes what no entry leads to. -/
theorem EntriesSound.destroy {s : Sections} (h : EntriesSound s) {c : ConnId}
    (hc : c ∈ s.removing) :
    EntriesSound { s with
      registry := s.registry.modify c Client.tornDown
      removing := s.removing.erase c
      destroyed := c :: s.destroyed } := by
  have hother {d : ConnId} (hne : d ≠ c) :
      (s.registry.modify c Client.tornDown).client d = s.registry.client d :=
    Registry.client_modify_of_ne _ hne _
  have hname (d : ConnId) : ((s.registry.modify c Client.tornDown).client d).hostname =
      (s.registry.client d).hostname := by
    by_cases hdc : d = c
    · subst hdc
      rw [Registry.client_modify_self]
      rfl
    · rw [hother hdc]
  refine ⟨h.made, ?_, ?_, ?_, ?_, h.pendingOnce, fun d hd => (hname d).trans (h.unnamed d hd)⟩
  · intro d hd
    rcases hd with hd | hd
    · exact h.madeGone d (Or.inl (List.mem_of_mem_erase hd))
    · rcases List.mem_cons.mp hd with rfl | hd
      · exact h.madeGone _ (Or.inl hc)
      · exact h.madeGone d (Or.inr hd)
  · intro key d hd
    have hdc : d ≠ c := by
      rintro rfl
      exact (h.live key d hd).1 hc
    simp only [hother hdc]
    exact h.entry key d hd
  · intro key d hd
    obtain ⟨hr, hds⟩ := h.live key d hd
    refine ⟨fun hm => hr (List.mem_of_mem_erase hm), ?_⟩
    intro hm
    rcases List.mem_cons.mp hm with rfl | hm
    · exact hr hc
    · exact hds hm
  · intro d name hd
    obtain ⟨hlen, hnamed, hempty⟩ := h.pending d name hd
    exact ⟨hlen, hnamed, (hname d).trans hempty⟩

/-- Every section keeps the invariant, if names are admissible and removals separated. -/
theorem EntriesSound.step {s s' : Sections} {a : SectionAct} (h : EntriesSound s)
    (hok : NamesAdmissible s a ∧ RemovalSeparated s a) (hs : s.step a = some s') :
    EntriesSound s' := by
  cases Sections.move_of_step hs with
  | add fd now junk => exact h.add fd now junk
  | nobodyNamed => exact h
  | setName hget =>
    obtain ⟨⟨hlen, hkey, hfresh⟩, -⟩ := hok
    exact h.setName hget ⟨hlen, hkey⟩ (hfresh _ hget)
  | writeName hnaming => exact h.writeName hnaming
  | nobodyUnregistered => exact h
  | unregister hget => exact h.unregister hget (hok.2 _ hget)
  | destroy hremoving => exact h.destroy hremoving

/-- In every run whose names are admissible and in which no client is unregistered between
the two sections of a call that names it, no entry ever leads to a destroyed client. -/
theorem noDanglingEntry_of_separated (s : Sections)
    (h : Reaches Sections.step (fun s a => NamesAdmissible s a ∧ RemovalSeparated s a) .init s) :
    NoDanglingEntry s := by
  have hs : EntriesSound s :=
    h.invariant EntriesSound.init fun _ _ _ hi hok hstep => hi.step hok hstep
  exact fun key c hc => (hs.live key c hc).2

/-- A client is named, its field is written, and then it is removed. -/
def separatedActs : List SectionAct :=
  [.add 5 0 .zero, .setName 5 (ascii "desk"), .writeName 0 (ascii "desk"), .unregister 5,
    .destroy 0]

/-- A client is removed between the two sections of the call that names it. -/
def overlappingActs : List SectionAct :=
  [.add 5 0 .zero, .setName 5 (ascii "desk"), .unregister 5, .destroy 0]

instance (s : Sections) (a : SectionAct) : Decidable (RemovalSeparated s a) := by
  cases a with
  | unregister fd => exact inferInstanceAs (Decidable (∀ c ∈ s.registry.byFd fd, _))
  | _ => exact isTrue trivial

theorem noDanglingEntry_separatedActs :
    ∃ s, Reaches Sections.step (fun s a => NamesAdmissible s a ∧ RemovalSeparated s a) .init s ∧
      0 ∈ s.destroyed ∧ NoDanglingEntry s := by
  have hrun : (run (guarded Sections.step fun s a => NamesAdmissible s a ∧ RemovalSeparated s a)
      .init separatedActs).map Sections.destroyed = some [0] := by decide
  obtain ⟨s, hs, hd⟩ := Option.map_eq_some_iff.mp hrun
  exact ⟨s, reaches_of_run hs, by simp [hd], noDanglingEntry_of_separated s (reaches_of_run hs)⟩

/-- The entry of the hostname survives its client. -/
theorem danglingEntry_overlappingActs :
    ∃ s, Reaches Sections.step NamesAdmissible .init s ∧ ¬ NoDanglingEntry s := by
  have hrun : (run (guarded Sections.step NamesAdmissible) .init overlappingActs).map
      (fun s => (s.registry.clientsMap.get (ascii "desk"), s.destroyed)) = some (some 0, [0]) := by
    decide
  obtain ⟨s, hs, he⟩ := Option.map_eq_some_iff.mp hrun
  obtain ⟨hget, hd⟩ := Prod.mk.inj he
  refine ⟨s, reaches_of_run hs, fun hno => hno _ _ hget ?_⟩
  simp [hd]

end AdMQ
