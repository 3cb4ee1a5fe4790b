import AdMQ.Broker.Threads.Moves

/-!
# Who owns a descriptor

The registry, the client records and the descriptor table of the kernel agree in
every interleaving, as long as no accepted common name looks like a descriptor
key: an open client owns its descriptor, a descriptor key leads to an open
client with that descriptor, and a client that a thread has locked stays open.
A client that was taken out of the registry is never found under a descriptor
again, so tearing it down closes nothing that is still registered. Its memory may
then be given to another client, and that of no other one is.
-/

namespace AdMQ

open Core

/-- The descriptors, as the parts of the shared state describe them. -/
structure Owned (s : Sys) : Prop where
  /-- An open client owns its descriptor. -/
  owner : ∀ c, 0 < (s.client c).fd → s.fdTable (s.client c).fd = some c
  /-- A descriptor key leads to the client with this descriptor. -/
  entry : ∀ n c, s.byFd n = some c → (s.client c).fd = n ∧ 0 < n
  /-- Every key leads to a client that `client_add` made. -/
  mapped : ∀ key c, s.registry.clientsMap.get key = some c → (s.client c).fd ≠ 0
  /-- A connection has one descriptor. -/
  single : ∀ m n c, s.fdTable m = some c → s.fdTable n = some c → m = n
  /-- Connections to come have no client yet. -/
  fresh : ∀ c, s.nextConn ≤ c → (s.client c).fd = 0
  /-- Open descriptors belong to past connections. -/
  allotted : ∀ n c, s.fdTable n = some c → c < s.nextConn
  /-- Descriptors of connections are positive. -/
  positive : ∀ n c, s.fdTable n = some c → 0 < n
  /-- Lobby connections have no client. -/
  lobby : ∀ c, s.lobby c = true → (s.client c).fd ≤ 0
  /-- A client that was not torn down has its memory to itself. -/
  placed : ∀ c, 0 ≤ (s.client c).fd → s.heir c = c
  /-- The memory of a client that was torn down is a client's. -/
  inherited : ∀ c, (s.client c).fd < 0 → (s.client (s.heir c)).fd ≠ 0

/-- A client with a descriptor owns it. -/
theorem Owned.fdTable_of_fd {s : Sys} (h : Owned s) {n : Int} {c : ConnId}
    (hfd : (s.client c).fd = n) (hpos : 0 < n) : s.fdTable n = some c := by
  subst hfd
  exact h.owner c hpos

/-- A registered client owns the descriptor it is registered under. -/
theorem Owned.fdTable_of_byFd {s : Sys} (h : Owned s) {n : Int} {c : ConnId}
    (hget : s.byFd n = some c) : s.fdTable n = some c := by
  obtain ⟨hfd, hpos⟩ := h.entry n c hget
  exact h.fdTable_of_fd hfd hpos

/-- Only one client is open on a descriptor. -/
theorem Owned.eq_of_fd {s : Sys} (h : Owned s) {n : Int} {c d : ConnId}
    (hc : (s.client c).fd = n) (hd : (s.client d).fd = n) (hpos : 0 < n) : c = d :=
  Option.some.inj ((h.fdTable_of_fd hc hpos).symm.trans (h.fdTable_of_fd hd hpos))

/-- Where a host name leads, there is a client that `client_add` made. -/
theorem Owned.fd_ne_zero_of_byHostname {s : Sys} (h : Owned s) {hostname : CStr} {c : ConnId}
    (hget : s.byHostname hostname = some c) : (s.client c).fd ≠ 0 := by
  obtain ⟨d, hd, rfl⟩ := Option.map_eq_some_iff.mp hget
  rcases lt_or_ge (s.client d).fd 0 with hneg | hopen
  · exact h.inherited d hneg
  · rw [h.placed d hopen]
    exact h.mapped hostname d hd

/-- What holds of the shared state at the point of a thread. -/
def PointOwned (s : Sys) (t : Thread) : Pc → Prop
  | .accepted c fd =>
    t = .main ∧ 0 < fd ∧ s.fdTable fd = some c ∧ (s.client c).fd = 0 ∧ s.lobby c = false
  | .setName _ cn => isFdKey cn = false
  | .destroy c _ => (s.client c).fd ≠ 0 ∧ ∀ n, s.byFd n ≠ some c
  | p => ∀ c, p.holds = some c → 0 < (s.client c).fd

/-- The invariant of the broker. -/
structure OwnedSys (s : Sys) : Prop where
  shared : Owned s
  points : ∀ t, PointOwned s t (s.pc t)

/-- Two states that agree on the descriptors. -/
structure SameOwners (s s' : Sys) : Prop where
  clientsMap : s'.registry.clientsMap = s.registry.clientsMap
  fd : ∀ c, (s'.client c).fd = (s.client c).fd
  fdTable : s'.fdTable = s.fdTable
  lobby : s'.lobby = s.lobby
  nextConn : s'.nextConn = s.nextConn
  heir : s'.heir = s.heir

theorem SameOwners.refl (s : Sys) : SameOwners s s := ⟨rfl, fun _ => rfl, rfl, rfl, rfl, rfl⟩

theorem SameOwners.byFd {s s' : Sys} (h : SameOwners s s') (n : Int) : s'.byFd n = s.byFd n :=
  congrArg (·.get (fdKey n)) h.clientsMap

theorem SameOwners.trans {s s' s'' : Sys} (h : SameOwners s s') (h' : SameOwners s' s'') :
    SameOwners s s'' where
  clientsMap := h'.clientsMap.trans h.clientsMap
  fd c := (h'.fd c).trans (h.fd c)
  fdTable := h'.fdTable.trans h.fdTable
  lobby := h'.lobby.trans h.lobby
  nextConn := h'.nextConn.trans h.nextConn
  heir := h'.heir.trans h.heir

theorem Owned.congr {s s' : Sys} (h : Owned s) (hs : SameOwners s s') : Owned s' where
  owner c hc := by
    rw [hs.fd] at hc ⊢
    rw [hs.fdTable]
    exact h.owner c hc
  entry n c hn := by
    rw [hs.byFd] at hn
    rw [hs.fd]
    exact h.entry n c hn
  mapped key c hc := by
    rw [hs.clientsMap] at hc
    rw [hs.fd]
    exact h.mapped key c hc
  single m n c hm hn := by
    rw [hs.fdTable] at hm hn
    exact h.single m n c hm hn
  fresh c hc := by
    rw [hs.nextConn] at hc
    rw [hs.fd]
    exact h.fresh c hc
  allotted n c hn := by
    rw [hs.fdTable] at hn
    rw [hs.nextConn]
    exact h.allotted n c hn
  positive n c hn := by
    rw [hs.fdTable] at hn
    exact h.positive n c hn
  lobby c hc := by
    rw [hs.lobby] at hc
    rw [hs.fd]
    exact h.lobby c hc
  placed c hc := by
    rw [hs.fd] at hc
    rw [hs.heir]
    exact h.placed c hc
  inherited c hc := by
    rw [hs.fd] at hc
    rw [hs.fd, hs.heir]
    exact h.inherited c hc

theorem PointOwned.congr {s s' : Sys} {t : Thread} {p : Pc} (h : PointOwned s t p)
    (hs : SameOwners s s') : PointOwned s' t p := by
  unfold PointOwned at h ⊢
  split at h
  · obtain ⟨ht, hpos, howner, hfd, hlobby⟩ := h
    exact ⟨ht, hpos, by rw [hs.fdTable]; exact howner, by rw [hs.fd]; exact hfd,
      by rw [hs.lobby]; exact hlobby⟩
  · exact h
  · refine ⟨by rw [hs.fd]; exact h.1, ?_⟩
    intro n
    rw [hs.byFd]
    exact h.2 n
  · intro c hc
    rw [hs.fd]
    exact h c hc

/-! ## Effects that touch no descriptor -/

/-- The effects that change nothing about descriptors. -/
def Effect.keepsOwners : Effect → Bool
  | .accept .. | .addClient .. | .mapName .. => false
  | .unregister .. | .tearDown .. | .closeLobby .. => false
  | _ => true

theorem sameOwners_modifyClient (s : Sys) (c : ConnId) {f : Client → Client}
    (h : ∀ k, (f k).fd = k.fd) : SameOwners s (s.modifyClient c f) :=
  ⟨rfl, fun d => s.client_modifyClient_eq c d (g := Client.fd) h, rfl, rfl, rfl, rfl⟩

theorem sameOwners_apply (s : Sys) {e : Effect} (h : e.keepsOwners = true) :
    SameOwners s (s.apply e) := by
  cases e with
  | accept fd lobby => cases h
  | addClient c fd memory => cases h
  | mapName fd cn => cases h
  | unregister fd => cases h
  | tearDown c => cases h
  | closeLobby fd => cases h
  | startSsl c => exact sameOwners_modifyClient s c fun _ => rfl
  | authenticate c cn =>
    have h := sameOwners_modifyClient s c
      (f := fun k => { k with authStatus := .success, state := .idle }) fun _ => rfl
    exact ⟨rfl, h.fd, rfl, rfl, rfl, rfl⟩
  | receive c chunk => exact sameOwners_modifyClient s c fun _ => rfl
  | consume c buffer => exact sameOwners_modifyClient s c fun _ => rfl
  | copyName c cn => exact sameOwners_modifyClient s (s.heir c) fun _ => rfl
  | _ => exact ⟨rfl, fun _ => rfl, rfl, rfl, rfl, rfl⟩

theorem sameOwners_applyAll (s : Sys) {effects : List Effect}
    (h : ∀ e ∈ effects, e.keepsOwners = true) : SameOwners s (s.applyAll effects) := by
  induction effects generalizing s with
  | nil => exact .refl s
  | cons e effects ih =>
    rw [List.forall_mem_cons] at h
    exact (sameOwners_apply s h.1).trans (ih _ h.2)

/-! ## Effects on descriptors -/

/-- What a thread has made sure of before an effect on descriptors. -/
def Effect.Admissible (s : Sys) : Effect → Prop
  | .accept fd _ => 0 < fd ∧ s.fdTable fd = none
  | .addClient c fd memory =>
    0 < fd ∧ s.fdTable fd = some c ∧ (s.client c).fd = 0 ∧ s.lobby c = false ∧ s.Allocates memory
  | .mapName _ cn => isFdKey cn = false
  | .tearDown c => ¬ s.Locked c ∧ ∀ n, s.byFd n ≠ some c
  | .closeLobby fd => ∃ c, s.fdTable fd = some c ∧ s.lobby c = true
  | _ => True

theorem Owned.accept {s : Sys} (h : Owned s) {fd : Int} (hpos : 0 < fd)
    (hfree : s.fdTable fd = none)
    (lobby : Bool) : Owned (s.apply (.accept fd lobby)) where
  owner c hc := by
    have howner := h.owner c hc
    have hne : (s.client c).fd ≠ fd := by
      rintro rfl
      rw [hfree] at howner
      cases howner
    exact (Function.update_of_ne hne ..).trans howner
  entry := h.entry
  mapped := h.mapped
  single m n c hm hn := by
    change Function.update s.fdTable fd (some s.nextConn) m = some c at hm
    change Function.update s.fdTable fd (some s.nextConn) n = some c at hn
    have hold {k : Int} (hk : Function.update s.fdTable fd (some s.nextConn) k = some c)
        (hne : k ≠ fd) : s.fdTable k = some c ∧ c < s.nextConn := by
      rw [Function.update_of_ne hne] at hk
      exact ⟨hk, h.allotted k c hk⟩
    by_cases hmf : m = fd
    · by_cases hnf : n = fd
      · rw [hmf, hnf]
      · rw [hmf, Function.update_self] at hm
        exact absurd (Option.some.inj hm) (hold hn hnf).2.ne'
    · by_cases hnf : n = fd
      · rw [hnf, Function.update_self] at hn
        exact absurd (Option.some.inj hn) (hold hm hmf).2.ne'
      · exact h.single m n c (hold hm hmf).1 (hold hn hnf).1
  fresh c hc := h.fresh c (Nat.le_of_succ_le hc)
  allotted n c hn := by
    change Function.update s.fdTable fd (some s.nextConn) n = some c at hn
    change c < s.nextConn + 1
    by_cases hfd : n = fd
    · subst hfd
      rw [Function.update_self] at hn
      rw [← Option.some.inj hn]
      exact Nat.lt_succ_self _
    · rw [Function.update_of_ne hfd] at hn
      exact Nat.lt_succ_of_lt (h.allotted n c hn)
  positive n c hn := by
    change Function.update s.fdTable fd (some s.nextConn) n = some c at hn
    by_cases hfd : n = fd
    · rw [hfd]
      exact hpos
    · rw [Function.update_of_ne hfd] at hn
      exact h.positive n c hn
  lobby c hc := by
    change Function.update s.lobby s.nextConn lobby c = true at hc
    by_cases hnew : c = s.nextConn
    · exact (h.fresh c hnew.ge).le
    · rw [Function.update_of_ne hnew] at hc
      exact h.lobby c hc
  placed := h.placed
  inherited := h.inherited

/-- The registry after a client was added. -/
theorem byFd_addClient (s : Sys) (c : ConnId) (fd : Int) (memory : ClientMemory) (n : Int) :
    (s.apply (.addClient c fd memory)).byFd n = if n = fd then some c else s.byFd n := by
  change (s.registry.clientsMap.set (fdKey fd) c).get (fdKey n) = _
  rw [ChainTable.get_set]
  simp only [fdKey_inj]
  rfl

theorem fd_addClient_self (s : Sys) (c : ConnId) (fd : Int) (memory : ClientMemory) :
    ((s.apply (.addClient c fd memory)).client c).fd = fd := by
  change (Function.update s.registry.client c (.new fd s.now memory.toJunk) c).fd = fd
  rw [Function.update_self]
  rfl

theorem client_addClient_of_ne (s : Sys) {c d : ConnId} (h : d ≠ c) (fd : Int)
    (memory : ClientMemory) : (s.apply (.addClient c fd memory)).client d = s.client d :=
  Function.update_of_ne h ..

/-- Where clients are after one was added: only reused memory is given away. -/
theorem heir_addClient (s : Sys) (c : ConnId) (fd : Int) (memory : ClientMemory) (d : ConnId) :
    (s.apply (.addClient c fd memory)).heir d =
      if memory.reused = some (s.heir d) then c else s.heir d := rfl

theorem Owned.addClient {s : Sys} (h : Owned s) {c : ConnId} {fd : Int} {memory : ClientMemory}
    (hpre : (Effect.addClient c fd memory).Admissible s) :
    Owned (s.apply (.addClient c fd memory)) := by
  obtain ⟨hpos, howner, hzero, hlobby, hmemory⟩ := hpre
  refine ⟨?_, ?_, ?_, h.single, ?_, h.allotted, h.positive, ?_, ?_, ?_⟩
  · intro d hd
    by_cases hdc : d = c
    · rw [hdc, fd_addClient_self]
      exact howner
    · rw [client_addClient_of_ne s hdc] at hd ⊢
      exact h.owner d hd
  · intro n d hn
    rw [byFd_addClient] at hn
    split at hn
    next hfd =>
      obtain rfl := Option.some.inj hn
      rw [fd_addClient_self, hfd]
      exact ⟨rfl, hpos⟩
    next =>
      have hentry := h.entry n d hn
      have hdc : d ≠ c := by
        rintro rfl
        rw [hzero] at hentry
        omega
      rw [client_addClient_of_ne s hdc]
      exact hentry
  · intro key d hd
    by_cases hdc : d = c
    · rw [hdc, fd_addClient_self]
      exact hpos.ne'
    · rw [client_addClient_of_ne s hdc]
      change (s.registry.clientsMap.set (fdKey fd) c).get key = some d at hd
      rw [ChainTable.get_set] at hd
      split at hd
      · exact absurd (Option.some.inj hd).symm hdc
      · exact h.mapped key d hd
  · intro d hd
    have hdc : d ≠ c := by
      rintro rfl
      exact absurd (h.allotted fd d howner) (Nat.not_lt.mpr hd)
    rw [client_addClient_of_ne s hdc]
    exact h.fresh d hd
  · intro d hd
    have hdc : d ≠ c := by
      rintro rfl
      exact Bool.false_ne_true (hlobby.symm.trans hd)
    rw [client_addClient_of_ne s hdc]
    exact h.lobby d hd
  · intro d hd
    rw [heir_addClient]
    by_cases hdc : d = c
    · rw [hdc, h.placed c hzero.ge, ite_self]
    · rw [client_addClient_of_ne s hdc] at hd
      rw [h.placed d hd, if_neg]
      intro hreused
      exact absurd hd (not_le.mpr (hmemory d hreused).1)
  · intro d hd
    have hdc : d ≠ c := by
      rintro rfl
      rw [fd_addClient_self] at hd
      exact lt_asymm hpos hd
    rw [client_addClient_of_ne s hdc] at hd
    rw [heir_addClient]
    split
    · rw [fd_addClient_self]
      exact hpos.ne'
    · by_cases hheir : s.heir d = c
      · rw [hheir, fd_addClient_self]
        exact hpos.ne'
      · rw [client_addClient_of_ne s hheir]
        exact h.inherited d hd

/-- A name that is no descriptor key changes no descriptor key. -/
theorem byFd_mapName (s : Sys) (fd : Int) {cn : CStr} (h : isFdKey cn = false) (n : Int) :
    (s.apply (.mapName fd cn)).byFd n = s.byFd n := by
  change (s.registry.setName fd cn).2.clientsMap.get (fdKey n) = s.registry.clientsMap.get (fdKey n)
  rw [Registry.setName]
  cases s.registry.byFd fd with
  | none => rfl
  | some c => exact (ChainTable.get_set ..).trans (if_neg (ne_fdKey_of_not_isFdKey h n).symm)

@[simp] theorem client_mapName (s : Sys) (fd : Int) (cn : CStr) :
    (s.apply (.mapName fd cn)).client = s.client := by
  funext c
  exact congrFun (Registry.client_setName ..) c

theorem Owned.mapName {s : Sys} (h : Owned s) (fd : Int) {cn : CStr} (hcn : isFdKey cn = false) :
    Owned (s.apply (.mapName fd cn)) where
  owner c hc := by
    rw [client_mapName] at hc ⊢
    exact h.owner c hc
  entry n c hn := by
    rw [byFd_mapName s fd hcn] at hn
    rw [client_mapName]
    exact h.entry n c hn
  mapped key c hc := by
    rw [client_mapName]
    change (s.registry.setName fd cn).2.clientsMap.get key = some c at hc
    rw [Registry.setName] at hc
    cases hget : s.registry.byFd fd with
    | none =>
      rw [hget] at hc
      exact h.mapped key c hc
    | some d =>
      rw [hget] at hc
      change (s.registry.clientsMap.set cn d).get key = some c at hc
      rw [ChainTable.get_set] at hc
      split at hc
      · exact Option.some.inj hc ▸ h.mapped _ d hget
      · exact h.mapped key c hc
  single := h.single
  fresh c hc := by
    rw [client_mapName]
    exact h.fresh c hc
  allotted := h.allotted
  positive := h.positive
  lobby c hc := by
    rw [client_mapName]
    exact h.lobby c hc
  placed c hc := by
    rw [client_mapName] at hc
    exact h.placed c hc
  inherited c hc := by
    rw [client_mapName] at hc ⊢
    exact h.inherited c hc

@[simp] theorem client_unregister (s : Sys) (fd : Int) :
    (s.apply (.unregister fd)).client = s.client := by
  funext c
  exact congrFun (Registry.client_unregister ..) c

/-- Removing a client only deletes entries. -/
theorem get_of_get_unregister {s : Sys} {fd : Int} {key : CStr} {d : ConnId}
    (h : (s.apply (.unregister fd)).registry.clientsMap.get key = some d) :
    s.registry.clientsMap.get key = some d := by
  change (s.registry.unregister fd).2.clientsMap.get key = some d at h
  rw [Registry.unregister] at h
  cases hget : s.registry.byFd fd with
  | none =>
    rw [hget] at h
    exact h
  | some c =>
    rw [hget] at h
    exact Registry.get_of_get_dropEntries h

theorem byFd_of_byFd_unregister {s : Sys} {fd n : Int} {d : ConnId}
    (h : (s.apply (.unregister fd)).byFd n = some d) : s.byFd n = some d := get_of_get_unregister h

/-- The removed descriptor leads nowhere. -/
theorem byFd_unregister_self (s : Sys) (fd : Int) : (s.apply (.unregister fd)).byFd fd = none := by
  change (s.registry.unregister fd).2.clientsMap.get (fdKey fd) = none
  rw [Registry.unregister]
  cases hget : s.registry.byFd fd with
  | none => exact hget
  | some c =>
    -- An entry that is left would be the one of this very client.
    by_contra hne
    obtain ⟨d, hd⟩ := Option.ne_none_iff_exists'.mp hne
    have hold := Registry.get_of_get_dropEntries hd
    have hdc : d = c := Option.some.inj (hold.symm.trans hget)
    exact Registry.get_dropEntries_ne (Or.inl rfl) (hdc ▸ hd)

/-- An entry that a removal does not delete. -/
theorem byFd_unregister_of_ne {s : Sys} {fd n : Int} {c d : ConnId} (hget : s.byFd n = some d)
    (hc : s.byFd fd = some c) (hdc : d ≠ c) : (s.apply (.unregister fd)).byFd n = some d := by
  change (s.registry.unregister fd).2.clientsMap.get (fdKey n) = some d
  have hne : n ≠ fd := by
    rintro rfl
    exact hdc (Option.some.inj (hget.symm.trans hc))
  have hc' : s.registry.byFd fd = some c := hc
  have hget' : s.registry.clientsMap.get (fdKey n) = some d := hget
  simp only [Registry.unregister, hc']
  rw [Registry.get_dropEntries, if_neg, hget']
  rintro (hkey | ⟨-, -, hkey⟩)
  · exact hne (fdKey_inj.mp hkey)
  · exact hdc (Option.some.inj (hget'.symm.trans hkey))

theorem Owned.unregister {s : Sys} (h : Owned s) (fd : Int) : Owned (s.apply (.unregister fd)) where
  owner c hc := by
    rw [client_unregister] at hc ⊢
    exact h.owner c hc
  entry n c hn := by
    rw [client_unregister]
    exact h.entry n c (byFd_of_byFd_unregister hn)
  mapped key c hc := by
    rw [client_unregister]
    exact h.mapped key c (get_of_get_unregister hc)
  single := h.single
  fresh c hc := by
    rw [client_unregister]
    exact h.fresh c hc
  allotted := h.allotted
  positive := h.positive
  lobby c hc := by
    rw [client_unregister]
    exact h.lobby c hc
  placed c hc := by
    rw [client_unregister] at hc
    exact h.placed c hc
  inherited c hc := by
    rw [client_unregister] at hc ⊢
    exact h.inherited c hc

/-- Closing one descriptor keeps the others. -/
theorem fdTable_of_closeFd {s : Sys} {fd n : Int} {c : ConnId}
    (h : (s.closeFd fd).fdTable n = some c) : s.fdTable n = some c ∧ n ≠ fd := by
  change Function.update s.fdTable fd none n = some c at h
  by_cases hn : n = fd
  · rw [hn, Function.update_self] at h
    cases h
  · rw [Function.update_of_ne hn] at h
    exact ⟨h, hn⟩

theorem fdTable_closeFd_of_ne (s : Sys) {fd n : Int} (h : n ≠ fd) :
    (s.closeFd fd).fdTable n = s.fdTable n := Function.update_of_ne h ..

/-- Tearing a client down, as the descriptor table sees it. -/
theorem fdTable_tearDown_of_ne (s : Sys) {c : ConnId} {n : Int} (h : n ≠ (s.client c).fd) :
    (s.tearDown c).fdTable n = s.fdTable n := by
  simp only [Sys.tearDown]
  split
  · exact Function.update_of_ne h ..
  · rfl

theorem fdTable_of_tearDown {s : Sys} {c d : ConnId} {n : Int}
    (h : (s.tearDown c).fdTable n = some d) : s.fdTable n = some d := by
  by_cases hn : n = (s.client c).fd
  · simp only [Sys.tearDown] at h
    split at h
    · rw [hn, Function.update_self] at h
      cases h
    · exact h
  · rwa [fdTable_tearDown_of_ne s hn] at h

theorem client_tearDown_of_ne (s : Sys) {c d : ConnId} (h : d ≠ c) :
    (s.tearDown c).client d = s.client d := Sys.client_modifyClient_of_ne s h _

theorem fd_tearDown_self (s : Sys) (c : ConnId) :
    ((s.tearDown c).client c).fd = if 0 < (s.client c).fd then -1 else (s.client c).fd :=
  congrArg Client.fd (s.client_modifyClient_self c Client.tornDown)

theorem Owned.tearDown {s : Sys} (h : Owned s) {c : ConnId} (hgone : ∀ n, s.byFd n ≠ some c) :
    Owned (s.tearDown c) := by
  have hfd := fd_tearDown_self s c
  -- A client is no less a client afterwards.
  have hmade {d : ConnId} (hd : (s.client d).fd ≠ 0) : ((s.tearDown c).client d).fd ≠ 0 := by
    by_cases hdc : d = c
    · rw [hdc] at hd
      rw [hdc, hfd]
      split <;> omega
    · rw [client_tearDown_of_ne s hdc]
      exact hd
  refine ⟨?_, ?_, fun key d hd => hmade (h.mapped key d hd), ?_, ?_, ?_, ?_, ?_, ?_, ?_⟩
  · intro d hd
    by_cases hdc : d = c
    · rw [hdc, hfd] at hd
      split at hd <;> omega
    · rw [client_tearDown_of_ne s hdc] at hd ⊢
      -- The descriptors of two open clients differ: each of them owns its own.
      have hne : (s.client d).fd ≠ (s.client c).fd := fun he => hdc (h.eq_of_fd rfl he.symm hd)
      rw [fdTable_tearDown_of_ne s hne]
      exact h.owner d hd
  · intro n d hn
    have hdc : d ≠ c := by
      rintro rfl
      exact hgone n hn
    rw [client_tearDown_of_ne s hdc]
    exact h.entry n d hn
  · intro m n d hm hn
    exact h.single m n d (fdTable_of_tearDown hm) (fdTable_of_tearDown hn)
  · intro d hd
    by_cases hdc : d = c
    · rw [hdc, hfd, h.fresh c (hdc ▸ hd)]
      rfl
    · rw [client_tearDown_of_ne s hdc]
      exact h.fresh d hd
  · intro n d hn
    exact h.allotted n d (fdTable_of_tearDown hn)
  · intro n d hn
    exact h.positive n d (fdTable_of_tearDown hn)
  · intro d hd
    by_cases hdc : d = c
    · have := h.lobby c (hdc ▸ hd)
      rw [hdc, hfd]
      split <;> omega
    · rw [client_tearDown_of_ne s hdc]
      exact h.lobby d hd
  · intro d hd
    change s.heir d = d
    refine h.placed d ?_
    by_cases hdc : d = c
    · rw [hdc, hfd] at hd
      rw [hdc]
      split at hd <;> omega
    · rwa [client_tearDown_of_ne s hdc] at hd
  · intro d hd
    refine hmade ?_
    change (s.client (s.heir d)).fd ≠ 0
    rcases lt_or_ge (s.client d).fd 0 with hneg | hopen
    · exact h.inherited d hneg
    · -- The client that was torn down had its memory to itself until now.
      have hdc : d = c := by
        by_contra hdc
        rw [client_tearDown_of_ne s hdc] at hd
        exact absurd hd (not_lt.mpr hopen)
      rw [h.placed d hopen, hdc]
      rw [hdc, hfd] at hd
      split at hd <;> omega

theorem Owned.closeLobby {s : Sys} (h : Owned s) {fd : Int} {c : ConnId}
    (howner : s.fdTable fd = some c) (hlobby : s.lobby c = true) : Owned (s.closeFd fd) where
  owner d hd := by
    have hd' := h.owner d hd
    have hne : (s.client d).fd ≠ fd := by
      intro he
      rw [he, howner] at hd'
      have hle := h.lobby d (Option.some.inj hd' ▸ hlobby)
      exact absurd hd (not_lt.mpr hle)
    exact (fdTable_closeFd_of_ne s hne).trans hd'
  entry := h.entry
  mapped := h.mapped
  single m n d hm hn := h.single m n d (fdTable_of_closeFd hm).1 (fdTable_of_closeFd hn).1
  fresh := h.fresh
  allotted n d hn := h.allotted n d (fdTable_of_closeFd hn).1
  positive n d hn := h.positive n d (fdTable_of_closeFd hn).1
  lobby := h.lobby
  placed := h.placed
  inherited := h.inherited

/-- Every admissible effect keeps the descriptors in order. -/
theorem Owned.apply {s : Sys} (h : Owned s) {e : Effect} (he : e.Admissible s) :
    Owned (s.apply e) := by
  cases e with
  | accept fd lobby => exact h.accept he.1 he.2 lobby
  | addClient c fd memory => exact h.addClient he
  | mapName fd cn => exact h.mapName fd he
  | unregister fd => exact h.unregister fd
  | tearDown c => exact h.tearDown he.2
  | closeLobby fd =>
    obtain ⟨c, howner, hlobby⟩ := he
    exact h.closeLobby howner hlobby
  | _ => exact h.congr (sameOwners_apply s rfl)

/-! ## Effects seen from the points of the other threads -/

/-- What a point relies on, one kind of point at a time. -/
theorem PointOwned.mono {s s' : Sys} {t : Thread} {p : Pc} (h : PointOwned s t p)
    (haccepted : ∀ c fd, p = .accepted c fd → PointOwned s t (.accepted c fd) →
      PointOwned s' t (.accepted c fd))
    (hdestroy : ∀ c rest, p = .destroy c rest → PointOwned s t (.destroy c rest) →
      PointOwned s' t (.destroy c rest))
    (hholds : ∀ c, p.holds = some c → 0 < (s.client c).fd → 0 < (s'.client c).fd) :
    PointOwned s' t p := by
  cases p with
  | accepted c fd => exact haccepted c fd rfl h
  | destroy c rest => exact hdestroy c rest rfl h
  | setName r cn => exact h
  | _ => exact fun c hc => hholds c hc (h c hc)

theorem PointOwned.accept {s : Sys} {t : Thread} {p : Pc} (h : PointOwned s t p) (hs : Owned s)
    {fd : Int} (hfree : s.fdTable fd = none) (lobby : Bool) :
    PointOwned (s.apply (.accept fd lobby)) t p := by
  refine h.mono ?_ (fun c rest _ hold => hold) fun c _ hold => hold
  intro c n _ hold
  obtain ⟨ht, hpos, howner, hzero, hlobby⟩ := hold
  have hn : n ≠ fd := by
    rintro rfl
    rw [hfree] at howner
    cases howner
  have hc : c ≠ s.nextConn := (hs.allotted n c howner).ne
  exact ⟨ht, hpos, (Function.update_of_ne hn ..).trans howner, hzero,
    (Function.update_of_ne hc ..).trans hlobby⟩

theorem PointOwned.addClient {s : Sys} {t : Thread} {p : Pc} (h : PointOwned s t p)
    (ht : t ≠ .main) {c : ConnId} {fd : Int} {memory : ClientMemory}
    (hpre : (Effect.addClient c fd memory).Admissible s) :
    PointOwned (s.apply (.addClient c fd memory)) t p := by
  refine h.mono (fun d n _ hold => absurd hold.1 ht) ?_ ?_
  · intro d rest _ hold
    have hdc : d ≠ c := by
      rintro rfl
      exact hold.1 hpre.2.2.1
    refine ⟨by rw [client_addClient_of_ne s hdc]; exact hold.1, ?_⟩
    intro n
    rw [byFd_addClient]
    split
    · exact fun he => hdc (Option.some.inj he).symm
    · exact hold.2 n
  · intro d _ hold
    have hdc : d ≠ c := by
      rintro rfl
      exact absurd hpre.2.2.1 hold.ne'
    rw [client_addClient_of_ne s hdc]
    exact hold

theorem PointOwned.mapName {s : Sys} {t : Thread} {p : Pc} (h : PointOwned s t p) (fd : Int)
    {cn : CStr} (hcn : isFdKey cn = false) : PointOwned (s.apply (.mapName fd cn)) t p := by
  refine h.mono ?_ ?_ ?_
  · intro c n _ hold
    obtain ⟨ht, hpos, howner, hzero, hlobby⟩ := hold
    exact ⟨ht, hpos, howner, by rw [client_mapName]; exact hzero, hlobby⟩
  · intro c rest _ hold
    refine ⟨by rw [client_mapName]; exact hold.1, ?_⟩
    intro n
    rw [byFd_mapName s fd hcn]
    exact hold.2 n
  · intro c _ hold
    rw [client_mapName]
    exact hold

theorem PointOwned.unregister {s : Sys} {t : Thread} {p : Pc} (h : PointOwned s t p) (fd : Int) :
    PointOwned (s.apply (.unregister fd)) t p := by
  refine h.mono ?_ ?_ ?_
  · intro c n _ hold
    obtain ⟨ht, hpos, howner, hzero, hlobby⟩ := hold
    exact ⟨ht, hpos, howner, by rw [client_unregister]; exact hzero, hlobby⟩
  · intro c rest _ hold
    exact ⟨by rw [client_unregister]; exact hold.1, fun n hn =>
      hold.2 n (byFd_of_byFd_unregister hn)⟩
  · intro c _ hold
    rw [client_unregister]
    exact hold

theorem PointOwned.tearDown {s : Sys} {t : Thread} {p : Pc} (h : PointOwned s t p) (hs : Owned s)
    {c : ConnId} (hfree : p.holds ≠ some c) : PointOwned (s.tearDown c) t p := by
  have hfd := fd_tearDown_self s c
  refine h.mono ?_ ?_ ?_
  · intro d n _ hold
    obtain ⟨ht, hpos, howner, hzero, hlobby⟩ := hold
    -- The descriptor just accepted is not the one that is closed: it has no client yet.
    have hne : n ≠ (s.client c).fd := by
      intro he
      have hc := hs.owner c (he ▸ hpos)
      rw [← he, howner] at hc
      rw [← Option.some.inj hc, hzero] at he
      exact absurd he hpos.ne'
    refine ⟨ht, hpos, (fdTable_tearDown_of_ne s hne).trans howner, ?_, hlobby⟩
    by_cases hdc : d = c
    · rw [hdc, hfd, ← hdc, hzero]
      rfl
    · rw [client_tearDown_of_ne s hdc]
      exact hzero
  · intro d rest _ hold
    refine ⟨?_, hold.2⟩
    by_cases hdc : d = c
    · have hne := hold.1
      rw [hdc] at hne
      rw [hdc, hfd]
      split <;> omega
    · rw [client_tearDown_of_ne s hdc]
      exact hold.1
  · intro d hd hold
    have hdc : d ≠ c := by
      rintro rfl
      exact hfree hd
    rw [client_tearDown_of_ne s hdc]
    exact hold

theorem PointOwned.closeLobby {s : Sys} {t : Thread} {p : Pc} (h : PointOwned s t p) {fd : Int}
    {c : ConnId} (howner : s.fdTable fd = some c) (hlobby : s.lobby c = true) :
    PointOwned (s.closeFd fd) t p := by
  refine h.mono ?_ (fun d rest _ hold => hold) fun d _ hold => hold
  intro d n _ hold
  obtain ⟨ht, hpos, hn, hzero, hvault⟩ := hold
  have hne : n ≠ fd := by
    rintro rfl
    rw [Option.some.inj (hn.symm.trans howner), hlobby] at hvault
    cases hvault
  exact ⟨ht, hpos, (fdTable_closeFd_of_ne s hne).trans hn, hzero, hvault⟩

/-- Every admissible effect keeps what the points rely on; a client is only added for the
accept loop itself. -/
theorem OwnedSys.point_apply {s : Sys} (h : OwnedSys s) {e : Effect} (he : e.Admissible s)
    {t : Thread} (hadd : ∀ c fd memory, e = .addClient c fd memory → t ≠ .main) :
    PointOwned (s.apply e) t (s.pc t) := by
  have hp := h.points t
  cases e with
  | accept fd lobby => exact hp.accept h.shared he.2 lobby
  | addClient c fd memory => exact hp.addClient (hadd c fd memory rfl) he
  | mapName fd cn => exact hp.mapName fd he
  | unregister fd => exact hp.unregister fd
  | tearDown c => exact hp.tearDown h.shared fun hc => he.1 ⟨t, hc⟩
  | closeLobby fd =>
    obtain ⟨c, howner, hlobby⟩ := he
    exact hp.closeLobby howner hlobby
  | _ => exact hp.congr (sameOwners_apply s rfl)

/-! ## Steps -/

theorem OwnedSys.goto {s : Sys} {t : Thread} {p : Pc} (hs : Owned s)
    (hothers : ∀ u, u ≠ t → PointOwned s u (s.pc u)) (hp : PointOwned s t p) :
    OwnedSys (s.goto t p) := by
  have hsame : SameOwners s (s.goto t p) := ⟨rfl, fun _ => rfl, rfl, rfl, rfl, rfl⟩
  refine ⟨hs.congr hsame, ?_⟩
  refine Sys.forall_pc_goto (P := PointOwned (s.goto t p)) rfl (hp.congr hsame) ?_
  intro u hu
  exact (hothers u hu).congr hsame

/-- A step whose effects touch no descriptor. -/
theorem OwnedSys.quiet {s : Sys} (h : OwnedSys s) {t : Thread} {effects : List Effect} {p : Pc}
    (heffects : ∀ e ∈ effects, e.keepsOwners = true) (hp : PointOwned s t p) :
    OwnedSys ((s.applyAll effects).goto t p) := by
  have hsame := sameOwners_applyAll s heffects
  refine .goto (h.shared.congr hsame) ?_ (hp.congr hsame)
  intro u _
  rw [Sys.pc_applyAll]
  exact (h.points u).congr hsame

/-- A step with one effect on descriptors. -/
theorem OwnedSys.single {s : Sys} (h : OwnedSys s) {t : Thread} {e : Effect} {p : Pc}
    (he : e.Admissible s) (hadd : ∀ c fd memory, e = .addClient c fd memory → t = .main)
    (hp : PointOwned (s.apply e) t p) : OwnedSys ((s.applyAll [e]).goto t p) := by
  refine .goto (h.shared.apply he) ?_ hp
  intro u hu
  change PointOwned (s.apply e) u ((s.apply e).pc u)
  rw [Sys.pc_apply]
  exact h.point_apply he fun c fd memory hc hmain => hu (hmain.trans (hadd c fd memory hc).symm)

/-- The accepted common names are no descriptor keys. -/
def Act.NamePlain (a : Act) : Prop :=
  match a.input with
  | .goodCertificate cn => isFdKey cn = false
  | _ => True

theorem answers_keepsOwners {s : Sys} {c : ConnId} {e : Effect} (h : Answers s c e) :
    e.keepsOwners = true := by
  cases h <;> rfl

/-- A client that is locked is open. -/
theorem OwnedSys.open_of_holds {s : Sys} (h : OwnedSys s) {t : Thread} {c : ConnId}
    (hc : (s.pc t).holds = some c) : 0 < (s.client c).fd := by
  have hp := h.points t
  cases hpc : s.pc t with
  | accepted d fd =>
    rw [hpc] at hc
    cases hc
  | destroy d rest =>
    rw [hpc] at hc
    cases hc
  | setName r cn =>
    rw [hpc] at hc
    cases hc
  | _ =>
    rw [hpc] at hp hc
    exact hp c hc

theorem Effect.admissible_of_keepsOwners {s : Sys} {e : Effect} (h : e.keepsOwners = true) :
    e.Admissible s := by
  cases e with
  | accept | addClient | mapName | tearDown | closeLobby => cases h
  | _ => trivial

/-- The threads make sure of what their effects on descriptors need. -/
theorem OwnedSys.admissible {s : Sys} (h : OwnedSys s) {t : Thread} {input : Input}
    {effects : List Effect} {next : Pc} (hmove : Move s t input effects next) {e : Effect}
    (he : e ∈ effects) : e.Admissible s := by
  have hpoint := h.points t
  have hquiet (hkeeps : ∀ e ∈ effects, e.keepsOwners = true) : e.Admissible s :=
    Effect.admissible_of_keepsOwners (hkeeps e he)
  cases hmove with
  | acceptVault ht hin hpc hpos hfree | acceptLobby ht hin hpc hpos hfree =>
    cases List.mem_singleton.mp he
    exact ⟨hpos, hfree⟩
  | add hin hpc hread hmemory =>
    cases List.mem_singleton.mp he
    rw [hpc] at hpoint
    obtain ⟨-, hpos, howner, hzero, hlobby⟩ := hpoint
    exact ⟨hpos, howner, hzero, hlobby, hmemory⟩
  | closeLobby ht hin hpc howner hlobby =>
    cases List.mem_singleton.mp he
    exact ⟨_, howner, hlobby⟩
  | mapName hpc hread hget =>
    cases List.mem_singleton.mp he
    rw [hpc] at hpoint
    exact hpoint
  | unregister hpc hread hget =>
    cases List.mem_singleton.mp he
    trivial
  | destroy hpc hfree =>
    cases List.mem_singleton.mp he
    rw [hpc] at hpoint
    exact ⟨hfree, hpoint.2⟩
  | answered hpc hbuf heffects =>
    refine hquiet fun e he => ?_
    rcases List.mem_cons.mp he with rfl | he
    · rfl
    · exact answers_keepsOwners (heffects e he)
  | _ => exact hquiet (List.all_eq_true.mp rfl)

/-- A registered client is not displaced by a new one, since its descriptor is still open. -/
theorem byFd_addClient_of_byFd {s : Sys} (h : Owned s) {c d : ConnId} {fd n : Int}
    {memory : ClientMemory} (hpre : (Effect.addClient c fd memory).Admissible s)
    (hget : s.byFd n = some d) : (s.apply (.addClient c fd memory)).byFd n = some d := by
  obtain ⟨-, howner, hzero, -⟩ := hpre
  rw [byFd_addClient, if_neg]
  · exact hget
  · rintro rfl
    obtain rfl := Option.some.inj (howner.symm.trans (h.fdTable_of_byFd hget))
    have hentry := h.entry n c hget
    omega

/-- The effects that leave the registry alone. -/
def Effect.keepsMap : Effect → Bool
  | .addClient .. | .mapName .. | .unregister .. => false
  | _ => true

theorem clientsMap_applyAll (s : Sys) {effects : List Effect}
    (h : ∀ e ∈ effects, e.keepsMap = true) :
    (s.applyAll effects).registry.clientsMap = s.registry.clientsMap := by
  refine Sys.applyAll_induction (P := fun s' => s'.registry.clientsMap = s.registry.clientsMap)
    ?_ rfl
  intro s' e he hs
  have hkeeps := h e he
  cases e with
  | addClient | mapName | unregister => cases hkeeps
  | _ => exact hs

/-- The client that the next step of a thread takes out of the registry. -/
def Sys.removing (s : Sys) (t : Thread) : Option ConnId :=
  match s.pc t with
  | .remove fd _ => s.byFd fd
  | _ => none

/-- A registered client stays registered, unless a step takes it out of the registry. -/
theorem OwnedSys.byFd_of_move {s : Sys} (h : OwnedSys s) {t : Thread} {input : Input}
    {effects : List Effect} {next : Pc} (hmove : Move s t input effects next) {n : Int}
    {c : ConnId} (hn : s.byFd n = some c) :
    (s.applyAll effects).byFd n = some c ∨
      s.removing t = some c ∧ ∃ rest, next = .destroy c rest := by
  have hadmissible {e : Effect} (he : e ∈ effects) : e.Admissible s := h.admissible hmove he
  have hquiet (hkeeps : ∀ e ∈ effects, e.keepsMap = true) :
      (s.applyAll effects).byFd n = some c := by
    change (s.applyAll effects).registry.clientsMap.get (fdKey n) = some c
    rw [clientsMap_applyAll s hkeeps]
    exact hn
  cases hmove with
  | add hin hpc hread hmemory =>
    exact Or.inl (byFd_addClient_of_byFd h.shared (hadmissible List.mem_cons_self) hn)
  | mapName hpc hread hget =>
    exact Or.inl ((byFd_mapName s _ (hadmissible List.mem_cons_self) n).trans hn)
  | @unregister fd rest d hpc hread hget =>
    by_cases hcd : c = d
    · refine Or.inr ⟨?_, rest, by rw [hcd]⟩
      rw [Sys.removing, hpc, hcd]
      exact hget
    · exact Or.inl (byFd_unregister_of_ne hn hget hcd)
  | answered hpc hbuf heffects =>
    refine Or.inl (hquiet ?_)
    refine List.forall_mem_cons.mpr ⟨rfl, fun e he => ?_⟩
    cases heffects e he <;> rfl
  | _ => exact Or.inl (hquiet (List.all_eq_true.mp rfl))

/-- Every move keeps the descriptors in order. -/
theorem OwnedSys.move {s : Sys} {a : Act} (h : OwnedSys s) (hname : a.NamePlain)
    {effects : List Effect} {next : Pc} (hmove : Move s a.thread a.input effects next) :
    OwnedSys ((s.applyAll effects).goto a.thread next) := by
  have hadmissible {e : Effect} (he : e ∈ effects) : e.Admissible s := h.admissible hmove he
  -- The point of a thread that goes on with the client it holds.
  have hkeep {c : ConnId} (hc : (s.pc a.thread).holds = some c) (d : ConnId)
      (hd : some c = some d) : 0 < (s.client d).fd :=
    Option.some.inj hd ▸ h.open_of_holds hc
  -- The point of a thread that has just locked the client of a descriptor.
  have hfound {n : Int} {c : ConnId} (hget : s.byFd n = some c) (d : ConnId)
      (hd : some c = some d) : 0 < (s.client d).fd := by
    obtain ⟨hfd, hpos⟩ := h.shared.entry n c hget
    rw [← Option.some.inj hd, hfd]
    exact hpos
  cases hmove with
  | acceptVault ht hin hpc hpos hfree =>
    refine h.single (hadmissible List.mem_cons_self) nofun
      ⟨ht, hpos, Function.update_self .., ?_, ?_⟩
    · exact h.shared.fresh _ (Nat.le_refl _)
    · exact Function.update_self ..
  | acceptLobby ht hin hpc hpos hfree =>
    exact h.single (hadmissible List.mem_cons_self) nofun nofun
  | add hin hpc hread hmemory =>
    have hp := h.points a.thread
    rw [hpc] at hp
    exact h.single (hadmissible List.mem_cons_self) (fun _ _ _ _ => hp.1) nofun
  | closeLobby ht hin hpc howner hlobby =>
    exact h.single (hadmissible List.mem_cons_self) nofun nofun
  | lookup hpc hget hfree => exact h.quiet nofun (hfound hget)
  | verified hin hpc hauth =>
    rw [Act.NamePlain, hin] at hname
    exact h.quiet (List.all_eq_true.mp rfl) hname
  | received hpc hauth =>
    exact h.quiet (List.all_eq_true.mp rfl) (hkeep (by rw [hpc]; rfl))
  | answered hpc hbuf heffects =>
    refine h.quiet ?_ (hkeep (by rw [hpc]; rfl))
    intro e he
    rcases List.mem_cons.mp he with rfl | he
    · rfl
    · exact answers_keepsOwners (heffects e he)
  | stored hpc hline hcan => exact h.quiet (List.all_eq_true.mp rfl) (hkeep (by rw [hpc]; rfl))
  | lineSubscribe hpc hline hcan hlen =>
    exact h.quiet (List.all_eq_true.mp rfl) (hkeep (by rw [hpc]; rfl))
  | lineUnsubscribe hpc hline hcan =>
    exact h.quiet (List.all_eq_true.mp rfl) (hkeep (by rw [hpc]; rfl))
  | relock hpc hget hfree => exact h.quiet (List.all_eq_true.mp rfl) (hfound hget)
  | mapName hpc hread hget => exact h.single (hadmissible List.mem_cons_self) nofun nofun
  | subscribe hpc hfree => exact h.quiet (List.all_eq_true.mp rfl) (hkeep (by rw [hpc]; rfl))
  | unsubscribe hpc hfree =>
    exact h.quiet (List.all_eq_true.mp rfl) (hkeep (by rw [hpc]; rfl))
  | unregister hpc hread hget =>
    refine h.single (hadmissible List.mem_cons_self) nofun ⟨?_, ?_⟩
    · obtain ⟨hfd, hpos⟩ := h.shared.entry _ _ hget
      rw [client_unregister, hfd]
      exact hpos.ne'
    · -- The client has only one descriptor key, and that one is deleted.
      intro n hn
      have hn' := (h.shared.entry n _ (byFd_of_byFd_unregister hn)).1
      rw [← hn', (h.shared.entry _ _ hget).1, byFd_unregister_self] at hn
      cases hn
  | destroy hpc hfree => exact h.single (hadmissible List.mem_cons_self) nofun nofun
  | _ => exact h.quiet (List.all_eq_true.mp rfl) nofun

/-- Every step keeps the descriptors in order. -/
theorem OwnedSys.step {s s' : Sys} {a : Act} (h : OwnedSys s) (hname : a.NamePlain)
    (hs : s.step a = some s') : OwnedSys s' := by
  obtain ⟨effects, next, hmove, rfl⟩ := Sys.exists_move_of_step hs
  exact h.move hname hmove

theorem ownedSys_init (policy : Policy) (db : Database) : OwnedSys (.init policy db) := by
  have hmap (key : CStr) (c : ConnId) : (createTable ConnId).get key ≠ some c := by
    rw [createTable, ChainTable.get_empty]
    exact nofun
  exact ⟨⟨fun c hc => absurd hc (lt_irrefl _), fun n c hn => absurd hn (hmap (fdKey n) c),
    fun key c hc => absurd hc (hmap key c), nofun, fun _ _ => rfl, nofun, nofun, nofun,
    fun _ _ => rfl, fun c hc => absurd hc (lt_irrefl _)⟩, fun t => nofun⟩

end AdMQ
