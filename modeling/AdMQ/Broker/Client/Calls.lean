import AdMQ.Broker.Client.Dangling

/-!
# The registry between calls

When each call of `client_manager.c` runs without interruption, both sections of
`client_set_hostname` and of `client_remove` come one after the other. Then the
map says exactly what the calls so far say: which descriptors are connected, and
for a hostname the client that registered it last. It is not complete, though. The
removal of that client deletes the hostname, also when another client of the same
name is still connected.
-/

namespace AdMQ

open Core

/-- A call of `client_manager.c` that changes the registry. -/
inductive RegistryCall where
  | add (fd : Int) (now : Nat) (junk : Junk)
  | setHostname (fd : Int) (hostname : CStr)
  | remove (fd : Int)

/-- The sections of a call: the second one only for the client that the first one found. -/
def RegistryCall.sections (s : Sections) : RegistryCall → List SectionAct
  | .add fd now junk => [.add fd now junk]
  | .setHostname fd hostname =>
    .setName fd hostname :: (s.registry.byFd fd).toList.map (.writeName · hostname)
  | .remove fd => .unregister fd :: (s.registry.byFd fd).toList.map .destroy

/-- The connection that a call makes or finds. -/
def RegistryCall.conn (s : Sections) : RegistryCall → Option ConnId
  | .add _ _ _ => some s.nextConn
  | .setHostname fd _ | .remove fd => s.registry.byFd fd

/-- The calls so far, latest first, with the connections they were about. -/
abbrev CallHistory := List (RegistryCall × Option ConnId)

/-- The registry, between two calls. -/
structure Connections where
  sections : Sections
  history : CallHistory

/-- After `client_manager_init`. -/
def Connections.init : Connections := ⟨.init, []⟩

namespace Connections

def registry (s : Connections) : Registry := s.sections.registry

def client (s : Connections) (c : ConnId) : Client := s.registry.client c

/-- One call without interruption. -/
def step (s : Connections) (call : RegistryCall) : Option Connections :=
  (run Sections.step s.sections (call.sections s.sections)).map fun sections =>
    ⟨sections, (call, call.conn s.sections) :: s.history⟩

/-- A client was made and has not been removed. -/
def Connected (s : Connections) (c : ConnId) : Prop :=
  c < s.sections.nextConn ∧ c ∉ s.sections.destroyed

/-- Hostnames have 1 to 126 characters, are no descriptor keys, and are set once for a
connection. -/
def NamesOnce (s : Connections) : RegistryCall → Prop
  | .setHostname fd hostname => NamesAdmissible s.sections (.setName fd hostname)
  | _ => True

variable {s s' : Connections}

/-- Everything a call can do. -/
inductive Move (s : Connections) : RegistryCall → Connections → Prop where
  | add (fd : Int) (now : Nat) (junk : Junk) :
      Move s (.add fd now junk)
        ⟨{ s.sections with
            registry := s.sections.registry.add s.sections.nextConn (.new fd now junk)
            nextConn := s.sections.nextConn + 1 },
          (.add fd now junk, some s.sections.nextConn) :: s.history⟩
  | nobodyNamed {fd : Int} {hostname : CStr} (hget : s.registry.byFd fd = none) :
      Move s (.setHostname fd hostname)
        ⟨s.sections, (.setHostname fd hostname, none) :: s.history⟩
  | named {fd : Int} {hostname : CStr} {c : ConnId} (hget : s.registry.byFd fd = some c) :
      Move s (.setHostname fd hostname)
        ⟨{ s.sections with
            registry := { s.sections.registry with
              clientsMap := s.sections.registry.clientsMap.set hostname c }.modify c
                (·.copyHostname hostname)
            named := c :: s.sections.named },
          (.setHostname fd hostname, some c) :: s.history⟩
  | nobodyRemoved {fd : Int} (hget : s.registry.byFd fd = none) :
      Move s (.remove fd) ⟨s.sections, (.remove fd, none) :: s.history⟩
  | removed {fd : Int} {c : ConnId} (hget : s.registry.byFd fd = some c) :
      Move s (.remove fd)
        ⟨{ s.sections with
            registry := { s.sections.registry with
              clientsMap := s.sections.registry.dropEntries fd c }.modify c Client.tornDown
            destroyed := c :: s.sections.destroyed },
          (.remove fd, some c) :: s.history⟩

theorem move_of_step {call : RegistryCall} (h : s.step call = some s') : s.Move call s' := by
  cases call with
  | add fd now junk =>
    cases h
    exact .add fd now junk
  | setHostname fd hostname =>
    cases hget : s.sections.registry.byFd fd with
    | none =>
      simp only [step, RegistryCall.sections, RegistryCall.conn, hget, Option.toList_none,
        List.map_nil, run, Sections.step, Registry.setName, Option.map_some, Option.some.injEq] at h
      exact h ▸ .nobodyNamed hget
    | some c =>
      simp only [step, RegistryCall.sections, RegistryCall.conn, hget, Option.toList_some,
        List.map_cons, List.map_nil, run, Sections.step, Registry.setName, List.mem_cons, true_or,
        if_true, List.erase_cons_head, Option.map_some, Option.some.injEq] at h
      exact h ▸ .named hget
  | remove fd =>
    cases hget : s.sections.registry.byFd fd with
    | none =>
      simp only [step, RegistryCall.sections, RegistryCall.conn, hget, Option.toList_none,
        List.map_nil, run, Sections.step, Registry.unregister, Option.map_some,
        Option.some.injEq] at h
      exact h ▸ .nobodyRemoved hget
    | some c =>
      simp only [step, RegistryCall.sections, RegistryCall.conn, hget, Option.toList_some,
        List.map_cons, List.map_nil, run, Sections.step, Registry.unregister, List.mem_cons,
        true_or, if_true, List.erase_cons_head, Option.map_some, Option.some.injEq] at h
      exact h ▸ .removed hget

/-- Every call returns. -/
theorem exists_step (s : Connections) (call : RegistryCall) : ∃ s', s.step call = some s' := by
  cases call with
  | add fd now junk => exact ⟨_, rfl⟩
  | setHostname fd hostname =>
    cases hget : s.sections.registry.byFd fd with
    | none => simp [step, RegistryCall.sections, hget, run, Sections.step, Registry.setName]
    | some c => simp [step, RegistryCall.sections, hget, run, Sections.step, Registry.setName]
  | remove fd =>
    cases hget : s.sections.registry.byFd fd with
    | none => simp [step, RegistryCall.sections, hget, run, Sections.step, Registry.unregister]
    | some c => simp [step, RegistryCall.sections, hget, run, Sections.step, Registry.unregister]

/-- Between calls the map is sound, and no call is under way. -/
structure Sound (s : Connections) : Prop where
  entries : EntriesSound s.sections
  naming : s.sections.naming = []
  removing : s.sections.removing = []

theorem Sound.init : Sound .init := ⟨EntriesSound.init, rfl, rfl⟩

/-- A call is a sequence of sections that keep the map sound. -/
theorem Sound.step (h : s.Sound) {call : RegistryCall} (hok : s.NamesOnce call)
    (hs : s.step call = some s') : s'.Sound := by
  cases move_of_step hs with
  | add fd now junk => exact ⟨h.entries.add fd now junk, h.naming, h.removing⟩
  | nobodyNamed hget => exact ⟨h.entries, h.naming, h.removing⟩
  | named hget =>
    obtain ⟨hlen, hkey, hfresh⟩ := hok
    have hentries := (h.entries.setName hget ⟨hlen, hkey⟩ (hfresh _ hget)).writeName
      List.mem_cons_self
    simp only [List.erase_cons_head] at hentries
    exact ⟨hentries, h.naming, h.removing⟩
  | nobodyRemoved hget => exact ⟨h.entries, h.naming, h.removing⟩
  | removed hget =>
    have hentries := (h.entries.unregister hget (by simp [h.naming])).destroy List.mem_cons_self
    simp only [List.erase_cons_head] at hentries
    exact ⟨hentries, h.naming, h.removing⟩

/-! ## What an entry says -/

/-- The client of an entry is connected. -/
theorem Sound.connected (h : s.Sound) {key : CStr} {c : ConnId}
    (hc : s.registry.clientsMap.get key = some c) : s.Connected c :=
  ⟨h.entries.made key c hc, (h.entries.live key c hc).2⟩

/-- Between calls an entry that is not the descriptor's is the name of its client. -/
theorem Sound.entry (h : s.Sound) {key : CStr} {c : ConnId}
    (hc : s.registry.clientsMap.get key = some c) :
    key = fdKey (s.client c).fd ∨
      isFdKey key = false ∧ key ≠ [] ∧ (s.client c).hostname = key := by
  rcases h.entries.entry key c hc with he | ⟨hf, hk, he | he⟩
  · exact .inl he
  · exact .inr ⟨hf, hk, he.symm⟩
  · rw [h.naming] at he
    exact absurd he List.not_mem_nil

theorem Sound.fd_eq (h : s.Sound) {fd : Int} {c : ConnId} (hc : s.registry.byFd fd = some c) :
    (s.client c).fd = fd :=
  h.entries.fd_eq hc

/-- A removal deletes no descriptor key but its own. -/
theorem Sound.get_fdKey_dropEntries (h : s.Sound) {fd : Int} {c : ConnId}
    (hc : s.registry.byFd fd = some c) (n : Int) :
    (s.registry.dropEntries fd c).get (fdKey n) = if n = fd then none else s.registry.byFd n := by
  rw [Registry.get_dropEntries]
  by_cases hn : n = fd
  · rw [if_pos hn, if_pos (Or.inl (congrArg fdKey hn))]
  · rw [if_neg hn, if_neg]
    · rfl
    · rintro (heq | ⟨-, -, hget⟩)
      · exact hn (fdKey_injective heq)
      · rcases h.entry hget with he | ⟨hf, -, -⟩
        · rw [h.fd_eq hc] at he
          exact hn (fdKey_injective he)
        · rw [isFdKey_fdKey] at hf
          cases hf

end Connections

/-! ## The map and the calls so far -/

/-- The connection that was added for a descriptor and has not been removed since. -/
def addedAs (n : Int) : CallHistory → Option ConnId
  | [] => none
  | (.add fd _ _, c) :: earlier => if n = fd then c else addedAs n earlier
  | (.remove fd, _) :: earlier => if n = fd then none else addedAs n earlier
  | (.setHostname _ _, _) :: earlier => addedAs n earlier

/-- The latest connection that registered a hostname. -/
def lastRegistered (name : CStr) : CallHistory → Option ConnId
  | [] => none
  | (.setHostname _ hostname, some c) :: earlier =>
    if name = hostname then some c else lastRegistered name earlier
  | (.setHostname _ _, none) :: earlier => lastRegistered name earlier
  | (.add _ _ _, _) :: earlier => lastRegistered name earlier
  | (.remove _, _) :: earlier => lastRegistered name earlier

/-- The map says what the calls so far say. -/
structure Tells (r : Registry) (history : CallHistory) : Prop where
  byFd_eq : ∀ n, r.byFd n = addedAs n history
  /-- Every client in the map is found under its descriptor. -/
  back : ∀ key c, r.clientsMap.get key = some c → r.byFd (r.client c).fd = some c
  latest : ∀ key c, isFdKey key = false → r.clientsMap.get key = some c →
    lastRegistered key history = some c

section Tells

variable {r : Registry} {history : CallHistory}

/-- A name is entered beside the descriptor keys. -/
theorem get_fdKey_set (r : Registry) {hostname : CStr} (hkey : isFdKey hostname = false)
    (c : ConnId) (n : Int) : (r.clientsMap.set hostname c).get (fdKey n) = r.byFd n := by
  rw [ChainTable.get_set, if_neg (ne_fdKey_of_not_isFdKey hkey n).symm]
  rfl

theorem Tells.init : Tells .init [] := by
  have hempty : ∀ key, Registry.init.clientsMap.get key = none := fun key => ChainTable.get_empty ..
  refine ⟨fun n => hempty (fdKey n), ?_, ?_⟩
  · intro key c hc
    rw [hempty] at hc
    cases hc
  · intro key c _ hc
    rw [hempty] at hc
    cases hc

theorem Tells.add (h : Tells r history) {fd : Int} {new : ConnId} (now : Nat) (junk : Junk)
    (hfree : r.byFd fd = none) (hnew : ∀ key c, r.clientsMap.get key = some c → c ≠ new) :
    Tells (r.add new (.new fd now junk)) ((.add fd now junk, some new) :: history) := by
  have hbyFd : ∀ n, (r.add new (.new fd now junk)).byFd n =
      if n = fd then some new else r.byFd n := by
    intro n
    rw [Registry.byFd, Registry.get_add]
    simp only [Client.new, fdKey_inj, Registry.byFd]
  refine ⟨?_, ?_, ?_⟩
  · intro n
    rw [hbyFd, addedAs, h.byFd_eq]
  · intro key c hc
    rw [Registry.get_add] at hc
    rw [hbyFd]
    split at hc
    next =>
      cases hc
      rw [Registry.client_add_self]
      exact if_pos rfl
    next =>
      have hback := h.back key c hc
      rw [Registry.client_add_of_ne r (hnew key c hc), if_neg]
      · exact hback
      · intro heq
        rw [heq, hfree] at hback
        cases hback
  · intro key c hkey hc
    rw [Registry.get_add, if_neg (ne_fdKey_of_not_isFdKey hkey _)] at hc
    exact h.latest key c hkey hc

/-- A call that finds nobody says nothing about the map. -/
theorem Tells.setHostname_none (h : Tells r history) (fd : Int) (hostname : CStr) :
    Tells r ((.setHostname fd hostname, none) :: history) :=
  ⟨h.byFd_eq, h.back, h.latest⟩

theorem Tells.setHostname (h : Tells r history) {fd : Int} {hostname : CStr} {c : ConnId}
    (hget : r.byFd fd = some c) (hfd : (r.client c).fd = fd) (hkey : isFdKey hostname = false) :
    Tells ({ r with clientsMap := r.clientsMap.set hostname c }.modify c (·.copyHostname hostname))
      ((.setHostname fd hostname, some c) :: history) := by
  refine ⟨?_, ?_, ?_⟩
  · intro n
    exact (get_fdKey_set r hkey c n).trans (h.byFd_eq n)
  · intro key d hd
    have hfdEq : (({ r with clientsMap := r.clientsMap.set hostname c }.modify c
        (·.copyHostname hostname)).client d).fd = (r.client d).fd :=
      Registry.client_modify_eq (g := Client.fd) _ c d fun _ => rfl
    rw [hfdEq]
    refine (get_fdKey_set r hkey c _).trans ?_
    change (r.clientsMap.set hostname c).get key = some d at hd
    rw [ChainTable.get_set] at hd
    split at hd
    next =>
      cases hd
      rw [hfd, hget]
    next => exact h.back key d hd
  · intro key d hplain hd
    change (r.clientsMap.set hostname c).get key = some d at hd
    rw [ChainTable.get_set] at hd
    rw [lastRegistered]
    split at hd
    next heq =>
      rw [if_pos heq, ← hd]
    next hne =>
      rw [if_neg hne]
      exact h.latest key d hplain hd

theorem Tells.remove_none (h : Tells r history) {fd : Int} (hget : r.byFd fd = none) :
    Tells r ((.remove fd, none) :: history) := by
  refine ⟨?_, h.back, h.latest⟩
  intro n
  rw [addedAs]
  split
  next heq => rw [heq, hget]
  next => exact h.byFd_eq n

theorem Tells.remove (h : Tells r history) {fd : Int} {c : ConnId}
    (hget : r.byFd fd = some c)
    (hbyFd : ∀ n, (r.dropEntries fd c).get (fdKey n) = if n = fd then none else r.byFd n)
    (hgone : ∀ key, (r.dropEntries fd c).get key ≠ some c) :
    Tells ({ r with clientsMap := r.dropEntries fd c }.modify c Client.tornDown)
      ((.remove fd, some c) :: history) := by
  refine ⟨?_, ?_, ?_⟩
  · intro n
    rw [addedAs, ← h.byFd_eq]
    exact hbyFd n
  · intro key d hd
    have hne : d ≠ c := by
      rintro rfl
      exact hgone key hd
    have hback := h.back key d (Registry.get_of_get_dropEntries hd)
    rw [Registry.client_modify_of_ne _ hne]
    refine (hbyFd _).trans ?_
    rw [if_neg]
    · exact hback
    · intro heq
      rw [heq, hget] at hback
      exact hne (Option.some.inj hback).symm
  · intro key d hplain hd
    exact h.latest key d hplain (Registry.get_of_get_dropEntries hd)

end Tells

namespace Connections

variable {s s' : Connections}

/-- Descriptors are added while they are not registered. -/
def AddsUnregistered (s : Connections) : RegistryCall → Prop
  | .add fd _ _ => s.registry.byFd fd = none
  | _ => True

/-- The condition on the calls. -/
def Admissible (s : Connections) (call : RegistryCall) : Prop :=
  s.NamesOnce call ∧ s.AddsUnregistered call

/-- After a removal no entry leads to the client. -/
theorem Sound.get_dropEntries_ne (h : s.Sound) {fd : Int} {c : ConnId}
    (hget : s.registry.byFd fd = some c) (key : CStr) :
    (s.registry.dropEntries fd c).get key ≠ some c := by
  intro hc
  have hold := Registry.get_of_get_dropEntries hc
  refine Registry.get_dropEntries_ne ?_ hc
  rcases h.entry hold with he | ⟨-, hne, hname⟩
  · exact .inl (by rw [he, h.fd_eq hget])
  · exact .inr ⟨hname.symm, hne⟩

/-- The invariant of the registry between calls. -/
structure Faithful (s : Connections) : Prop where
  sound : s.Sound
  tells : Tells s.registry s.history

theorem Faithful.step (h : s.Faithful) {call : RegistryCall} (hok : s.Admissible call)
    (hs : s.step call = some s') : s'.Faithful := by
  refine ⟨h.sound.step hok.1 hs, ?_⟩
  cases move_of_step hs with
  | add fd now junk =>
    exact h.tells.add now junk hok.2 fun key c hc => Nat.ne_of_lt (h.sound.entries.made key c hc)
  | nobodyNamed hget => exact h.tells.setHostname_none _ _
  | named hget => exact h.tells.setHostname hget (h.sound.fd_eq hget) hok.1.2.1
  | nobodyRemoved hget => exact h.tells.remove_none hget
  | removed hget =>
    exact h.tells.remove hget (h.sound.get_fdKey_dropEntries hget) (h.sound.get_dropEntries_ne hget)

theorem faithful_of_reaches (h : Reaches step Admissible init s) : s.Faithful :=
  h.invariant ⟨Sound.init, Tells.init⟩ fun _ _ _ hinv hok hs => hinv.step hok hs

/-- After any sequence of calls: a descriptor key leads to the client of that descriptor exactly
while it is added and not removed; every other key is the hostname of a connected client, the
latest that registered it; and a removal leaves no key of the removed client. -/
theorem registry_tells_calls (s : Connections) (h : Reaches step Admissible init s) :
    (∀ n c, s.registry.byFd n = some c ↔ addedAs n s.history = some c) ∧
    (∀ n c, s.registry.byFd n = some c → (s.client c).fd = n) ∧
    (∀ key c, s.registry.clientsMap.get key = some c → (∃ n, key = fdKey n) ∨
      (s.client c).hostname = key ∧ s.registry.byFd (s.client c).fd = some c ∧
        lastRegistered key s.history = some c) ∧
    ∀ n c s', s.registry.byFd n = some c → s.step (.remove n) = some s' →
      ∀ key, s'.registry.clientsMap.get key ≠ some c := by
  have hinv := faithful_of_reaches h
  refine ⟨?_, fun n c => hinv.sound.fd_eq, ?_, ?_⟩
  · intro n c
    rw [hinv.tells.byFd_eq]
  · intro key c hc
    rcases hinv.sound.entry hc with he | ⟨hplain, -, hname⟩
    · exact .inl ⟨_, he⟩
    · exact .inr ⟨hname, hinv.tells.back key c hc, hinv.tells.latest key c hplain hc⟩
  · intro n c s' hget hs
    cases move_of_step hs with
    | nobodyRemoved hnone =>
      rw [hget] at hnone
      cases hnone
    | removed hfound =>
      obtain rfl := Option.some.inj (hget.symm.trans hfound)
      exact hinv.sound.get_dropEntries_ne hget

/-! ## Clients that share a hostname -/

/-- The client that a hostname leads to is removed only while no other connected client has the
hostname. -/
def RemovesLast (s : Connections) : RegistryCall → Prop
  | .remove fd => ∀ c ∈ s.registry.byFd fd,
      s.registry.byHostname (s.client c).hostname = some c →
      ∀ d < s.sections.nextConn, d ∉ s.sections.destroyed →
        (s.client d).hostname = (s.client c).hostname → d = c
  | _ => True

/-- The hostname of every connected client that has one is in the map. -/
def Complete (s : Connections) : Prop :=
  ∀ c, s.Connected c → (s.client c).hostname ≠ [] →
    isFdKey (s.client c).hostname = false ∧
      ∃ d, s.registry.byHostname (s.client c).hostname = some d

theorem Complete.step (h : s.Complete) {call : RegistryCall} (hnames : s.NamesOnce call)
    (hok : s.RemovesLast call) (hs : s.step call = some s') : s'.Complete := by
  intro d hd hne
  cases move_of_step hs with
  | add fd now junk =>
    have hold : d ≠ s.sections.nextConn := by
      rintro rfl
      rw [client, registry, Registry.client_add_self] at hne
      exact hne rfl
    rw [client, registry, Registry.client_add_of_ne _ hold] at hne ⊢
    obtain ⟨hplain, e, he⟩ := h d ⟨Nat.lt_of_le_of_ne (Nat.le_of_lt_succ hd.1) hold, hd.2⟩ hne
    refine ⟨hplain, e, (Registry.get_add ..).trans ?_⟩
    exact (if_neg (ne_fdKey_of_not_isFdKey hplain _)).trans he
  | nobodyNamed hget => exact h d hd hne
  | @named fd hostname c hget =>
    obtain ⟨⟨-, hlen⟩, hkey, -⟩ := hnames
    by_cases hdc : d = c
    · subst hdc
      have hname : (Registry.client ({ s.sections.registry with
          clientsMap := s.sections.registry.clientsMap.set hostname d }.modify d
            (·.copyHostname hostname)) d).hostname = hostname := by
        rw [Registry.client_modify_self]
        exact Client.hostname_copyHostname _ (by omega)
      rw [client, registry, hname]
      refine ⟨hkey, d, ?_⟩
      exact (ChainTable.get_set ..).trans (if_pos rfl)
    · rw [client, registry, Registry.client_modify_of_ne _ hdc] at hne ⊢
      obtain ⟨hplain, e, he⟩ := h d hd hne
      refine ⟨hplain, ?_⟩
      by_cases hsame : (s.client d).hostname = hostname
      · exact ⟨c, (ChainTable.get_set ..).trans (if_pos hsame)⟩
      · exact ⟨e, (ChainTable.get_set ..).trans ((if_neg hsame).trans he)⟩
  | nobodyRemoved hget => exact h d hd hne
  | @removed fd c hget =>
    have hdc : d ≠ c := fun heq => hd.2 (heq ▸ List.mem_cons_self)
    have hlive : d ∉ s.sections.destroyed := fun hmem => hd.2 (List.mem_cons_of_mem _ hmem)
    rw [client, registry, Registry.client_modify_of_ne _ hdc] at hne ⊢
    obtain ⟨hplain, e, he⟩ := h d ⟨hd.1, hlive⟩ hne
    refine ⟨hplain, e, (Registry.get_dropEntries ..).trans ?_⟩
    rw [if_neg]
    · exact he
    · rintro (heq | ⟨hname, -, hentry⟩)
      · exact ne_fdKey_of_not_isFdKey hplain fd heq
      · refine hdc (hok c hget ?_ d hd.1 hlive hname)
        exact (congrArg s.registry.byHostname hname.symm).trans hentry

/-- In every sequence of calls in which the client that a hostname leads to is removed only as
the last connected one of that hostname, the hostname of a connected client leads to a connected
client of that hostname. -/
theorem hostname_reachable (s : Connections)
    (h : Reaches step (fun s call => s.NamesOnce call ∧ s.RemovesLast call) init s) :
    ∀ hostname c, s.Connected c → (s.client c).hostname = hostname → hostname ≠ [] →
      ∃ d, s.registry.byHostname hostname = some d ∧ s.Connected d ∧
        (s.client d).hostname = hostname := by
  have hinv : s.Sound ∧ s.Complete := by
    induction h with
    | start => exact ⟨Sound.init, fun c hc => absurd hc.1 (Nat.not_lt_zero c)⟩
    | next _ hok hs ih => exact ⟨ih.1.step hok.1 hs, ih.2.step hok.1 hok.2 hs⟩
  rintro hostname c hc rfl hne
  obtain ⟨hplain, d, hd⟩ := hinv.2 c hc hne
  refine ⟨d, hd, hinv.1.connected hd, ?_⟩
  rcases hinv.1.entry hd with he | ⟨-, -, hname⟩
  · exact absurd he (ne_fdKey_of_not_isFdKey hplain _)
  · exact hname

/-! ## Runs -/

instance (s : Connections) : (call : RegistryCall) → Decidable (s.NamesOnce call)
  | .setHostname fd hostname =>
    inferInstanceAs (Decidable (NamesAdmissible s.sections (.setName fd hostname)))
  | .add _ _ _ => .isTrue trivial
  | .remove _ => .isTrue trivial

instance (s : Connections) : (call : RegistryCall) → Decidable (s.AddsUnregistered call)
  | .add fd _ _ => inferInstanceAs (Decidable (s.registry.byFd fd = none))
  | .setHostname _ _ => .isTrue trivial
  | .remove _ => .isTrue trivial

instance (s : Connections) (call : RegistryCall) : Decidable (s.Admissible call) :=
  inferInstanceAs (Decidable (_ ∧ _))

instance (s : Connections) : (call : RegistryCall) → Decidable (s.RemovesLast call)
  | .remove fd => inferInstanceAs (Decidable (∀ c ∈ s.registry.byFd fd,
      s.registry.byHostname (s.client c).hostname = some c →
      ∀ d < s.sections.nextConn, d ∉ s.sections.destroyed →
        (s.client d).hostname = (s.client c).hostname → d = c))
  | .add _ _ _ => .isTrue trivial
  | .setHostname _ _ => .isTrue trivial

/-- Two connections of one device. -/
def sharedNameCalls : List RegistryCall :=
  [.add 5 0 .zero, .setHostname 5 (ascii "pump"), .add 6 0 .zero, .setHostname 6 (ascii "pump")]

/-- The device has reconnected, and its first connection is removed. -/
theorem registry_tells_calls_reconnect :
    ∃ s, Reaches step Admissible init s ∧ s.registry.clientsMap.get (ascii "pump") = some 1 ∧
      lastRegistered (ascii "pump") s.history = some 1 := by
  have hrun : (run (guarded step Admissible) init (sharedNameCalls ++ [.remove 5])).map
      (fun s => s.registry.clientsMap.get (ascii "pump")) = some (some 1) := by decide +kernel
  obtain ⟨s, hs, hget⟩ := Option.map_eq_some_iff.mp hrun
  have hreach := reaches_of_run hs
  refine ⟨s, hreach, hget, ?_⟩
  rcases (registry_tells_calls s hreach).2.2.1 _ _ hget with ⟨n, hn⟩ | ⟨-, -, hlast⟩
  · exact absurd hn (ne_fdKey_of_not_isFdKey (by decide) n)
  · exact hlast

theorem hostname_reachable_reconnect :
    ∃ s, Reaches step (fun s call => s.NamesOnce call ∧ s.RemovesLast call) init s ∧
      s.Connected 1 ∧ (s.client 1).hostname = ascii "pump" ∧
      ∃ d, s.registry.byHostname (ascii "pump") = some d ∧ s.Connected d := by
  have hrun : (run (guarded step fun s call => s.NamesOnce call ∧ s.RemovesLast call) init
      (sharedNameCalls ++ [.remove 5])).map (fun s => (s.sections.nextConn, s.sections.destroyed,
        (s.client 1).hostname)) = some (2, [0], ascii "pump") := by decide +kernel
  obtain ⟨s, hs, hproj⟩ := Option.map_eq_some_iff.mp hrun
  obtain ⟨hnext, hproj⟩ := Prod.mk.inj hproj
  obtain ⟨hdestroyed, hname⟩ := Prod.mk.inj hproj
  have hreach := reaches_of_run hs
  have hconnected : s.Connected 1 := by
    rw [Connected, hnext, hdestroyed]
    decide
  obtain ⟨d, hd, hconn, -⟩ := hostname_reachable s hreach _ 1 hconnected hname (by decide)
  exact ⟨s, hreach, hconnected, hname, d, hd, hconn⟩

/-- The second connection was a short one: when it is gone, the name of the first one leads
nowhere. -/
theorem hostname_lost_oneshot :
    ∃ s, Reaches step NamesOnce init s ∧ s.Connected 0 ∧ (s.client 0).hostname = ascii "pump" ∧
      s.registry.byHostname (ascii "pump") = none := by
  have hrun : (run (guarded step NamesOnce) init (sharedNameCalls ++ [.remove 6])).map
      (fun s => (s.sections.nextConn, s.sections.destroyed, (s.client 0).hostname,
        s.registry.byHostname (ascii "pump"))) = some (2, [1], ascii "pump", none) := by
    decide +kernel
  obtain ⟨s, hs, hproj⟩ := Option.map_eq_some_iff.mp hrun
  obtain ⟨hnext, hproj⟩ := Prod.mk.inj hproj
  obtain ⟨hdestroyed, hproj⟩ := Prod.mk.inj hproj
  obtain ⟨hname, hget⟩ := Prod.mk.inj hproj
  have hconnected : s.Connected 0 := by
    rw [Connected, hnext, hdestroyed]
    decide
  exact ⟨s, reaches_of_run hs, hconnected, hname, hget⟩

end Connections

end AdMQ
