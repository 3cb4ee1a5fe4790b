import AdMQ.Broker.Threads.Sweeping

/-!
# The lifetime of clients

`client_remove` frees a client in the step that tears it down, and other threads may
still have its address. A step looks into at most one client: the one whose mutex the
thread holds, one that it finds under a descriptor, the next one of a scan, the one that
it took out of the registry, the one that it is about to name, or one that the command
line finds under a host name.

In every interleaving the first four of these are alive, and no client is freed twice:
the registry leads from descriptors to live clients only, a scan keeps the registry from
changing, and only one thread takes a client out of it.
-/

namespace AdMQ

open Core

variable {s s' : Sys} {t : Thread} {input : Input} {effects : List Effect} {next : Pc}

/-! ## What a step looks into -/

/-- The client whose memory the next step of a thread reads or writes. -/
def Sys.touches (s : Sys) (t : Thread) (input : Input) : Option ConnId :=
  match s.pc t with
  | .idle =>
    match t, input with
    | .cli, .command (.subscribe targetHost _) => s.registry.byHostname targetHost
    | .cli, .command (.unsubscribe targetHost _) => s.registry.byHostname targetHost
    | _, _ => none
  | .task r => s.byFd r.fd
  | .relock r _ => s.byFd r.fd
  | .publishing _ _ _ _ (fd :: _) => s.byFd fd
  | .remove fd _ => s.byFd fd
  | .locked _ c => some c
  | .lines _ c => some c
  | .subscribe (some _) _ c _ _ => some c
  | .unsubscribe (some _) c _ _ => some c
  | .writeName _ c _ => some c
  | .destroy c _ => some c
  | .scan (c :: _) _ _ => some c
  | _ => none

/-- The points from which a client is reached without a lock that keeps it alive. -/
def Pc.unprotected : Pc → Bool
  | .idle | .writeName .. => true
  | _ => false

/-- The clients that were torn down, the last one first. -/
def Sys.noteFreed (freed : List ConnId) (s : Sys) (a : Act) (_ : Sys) : List ConnId :=
  (s.pc a.thread).tearsDown.toList ++ freed

/-- The clients that a scan has yet to look at. -/
def Pc.scans : Pc → List ConnId
  | .scan todo _ _ => todo
  | _ => []

/-! ## The invariant -/

/-- What keeps clients alive. -/
structure Alive (s : Sys) (freed : List ConnId) : Prop where
  /-- A key that a scan takes for a descriptor is one. -/
  keys : ∀ key c, isFdKey key = true → s.registry.clientsMap.get key = some c → ∃ n, key = fdKey n
  /-- A client that is about to be torn down is still open. -/
  doomed : ∀ t c, (s.pc t).tearsDown = some c → 0 < (s.client c).fd
  /-- Only one thread tears a client down. -/
  single : ∀ t u c, (s.pc t).tearsDown = some c → (s.pc u).tearsDown = some c → t = u
  /-- A scan looks at clients that are registered. -/
  scanned : ∀ t, ∀ c ∈ (s.pc t).scans, ∃ n, s.byFd n = some c
  /-- A freed client has no descriptor any more. -/
  closed : ∀ c ∈ freed, (s.client c).fd < 0
  nodup : freed.Nodup

theorem readLocked_of_scans {u : Thread} {c : ConnId} (h : c ∈ (s.pc u).scans) : s.ReadLocked := by
  refine ⟨u, ?_⟩
  cases hpc : s.pc u with
  | scan todo now found => rfl
  | _ =>
    rw [hpc] at h
    cases h

/-- A client that is about to be torn down is found under no descriptor. -/
theorem OwnedSys.not_byFd_of_tearsDown (h : OwnedSys s) {u : Thread} {c : ConnId}
    (hu : (s.pc u).tearsDown = some c) (n : Int) : s.byFd n ≠ some c := by
  have hpoint := h.points u
  cases hpc : s.pc u with
  | destroy d rest =>
    rw [hpc] at hu hpoint
    cases hu
    exact hpoint.2 n
  | _ =>
    rw [hpc] at hu
    cases hu

/-- A registered client is not freed. -/
theorem Alive.not_freed_of_byFd {freed : List ConnId} (h : Alive s freed) (ho : Owned s) {n : Int}
    {c : ConnId} (hget : s.byFd n = some c) : c ∉ freed := by
  intro hc
  obtain ⟨hfd, hpos⟩ := ho.entry n c hget
  have hclosed := h.closed c hc
  omega

/-- The state after a step, put together from its parts. -/
theorem Alive.goto {freed freed' : List ConnId} (h : Alive s freed) (hpc : s'.pc = s.pc)
    (hkeys : ∀ key c, isFdKey key = true → s'.registry.clientsMap.get key = some c →
      ∃ n, key = fdKey n)
    (hopen : ∀ u, u ≠ t → ∀ c, (s.pc u).tearsDown = some c → 0 < (s'.client c).fd)
    (hnext : ∀ c, next.tearsDown = some c →
      0 < (s'.client c).fd ∧ ∀ u, (s.pc u).tearsDown ≠ some c)
    (hbyFd : s.ReadLocked → ∀ n, s'.byFd n = s.byFd n)
    (hscans : ∀ c ∈ next.scans, ∃ n, s'.byFd n = some c)
    (hclosed : ∀ c ∈ freed', (s'.client c).fd < 0) (hnodup : freed'.Nodup) :
    Alive (s'.goto t next) freed' where
  keys := hkeys
  doomed := Sys.forall_pc_goto
    (P := fun _ p => ∀ c, p.tearsDown = some c → 0 < (s'.client c).fd) hpc
    (fun c hc => (hnext c hc).1) hopen
  single := by
    have hnew {v : Thread} {c : ConnId} (hc : next.tearsDown = some c)
        (hv : ((s'.goto t next).pc v).tearsDown = some c) : v = t := by
      by_contra hvt
      rw [Sys.pc_goto_of_ne s' hvt, hpc] at hv
      exact (hnext c hc).2 v hv
    intro u v c hu hv
    by_cases hut : u = t
    · rw [hut, Sys.pc_goto_self] at hu
      exact hut.trans (hnew hu hv).symm
    · by_cases hvt : v = t
      · rw [hvt, Sys.pc_goto_self] at hv
        exact absurd (hnew hv hu) hut
      · rw [Sys.pc_goto_of_ne s' hut, hpc] at hu
        rw [Sys.pc_goto_of_ne s' hvt, hpc] at hv
        exact h.single u v c hu hv
  scanned := by
    refine Sys.forall_pc_goto (P := fun _ p => ∀ c ∈ p.scans, ∃ n, s'.byFd n = some c) hpc hscans ?_
    intro u _ c hc
    obtain ⟨n, hn⟩ := h.scanned u c hc
    exact ⟨n, (hbyFd (readLocked_of_scans hc) n).trans hn⟩
  closed := hclosed
  nodup := hnodup

/-- A step that tears nothing down, frees nothing and leaves the descriptors of clients alone. -/
theorem Alive.keep {freed : List ConnId} (h : Alive s freed) (hpc : s'.pc = s.pc)
    (hkeys : ∀ key c, isFdKey key = true → s'.registry.clientsMap.get key = some c →
      ∃ n, key = fdKey n)
    (hfd : ∀ c, (s.client c).fd ≠ 0 → (s'.client c).fd = (s.client c).fd)
    (hnext : ∀ c, next.tearsDown = some c →
      0 < (s.client c).fd ∧ ∀ u, (s.pc u).tearsDown ≠ some c)
    (hbyFd : s.ReadLocked → ∀ n, s'.byFd n = s.byFd n)
    (hscans : ∀ c ∈ next.scans, ∃ n, s'.byFd n = some c) : Alive (s'.goto t next) freed := by
  refine h.goto hpc hkeys ?_ ?_ hbyFd hscans ?_ h.nodup
  · intro u _ c hc
    have hpos := h.doomed u c hc
    rw [hfd c hpos.ne']
    exact hpos
  · intro c hc
    obtain ⟨hpos, hothers⟩ := hnext c hc
    rw [hfd c hpos.ne']
    exact ⟨hpos, hothers⟩
  · intro c hc
    have hneg := h.closed c hc
    rw [hfd c hneg.ne]
    exact hneg

/-- A step that leaves the registry alone as well. -/
theorem Alive.quiet {freed : List ConnId} (h : Alive s freed) (hpc : s'.pc = s.pc)
    (hmap : s'.registry.clientsMap = s.registry.clientsMap)
    (hfd : ∀ c, (s'.client c).fd = (s.client c).fd) (hnext : next.tearsDown = none)
    (hscans : ∀ c ∈ next.scans, ∃ n, s.byFd n = some c) : Alive (s'.goto t next) freed := by
  have hbyFd (n : Int) : s'.byFd n = s.byFd n := congrArg (·.get (fdKey n)) hmap
  refine h.keep hpc ?_ (fun c _ => hfd c) ?_ (fun _ => hbyFd) ?_
  · rw [hmap]
    exact h.keys
  · intro c hc
    rw [hnext] at hc
    cases hc
  · intro c hc
    obtain ⟨n, hn⟩ := hscans c hc
    exact ⟨n, (hbyFd n).trans hn⟩

/-! ## Steps -/

/-- A line that is answered at once touches no descriptor. -/
theorem keepsOwners_of_answers {c : ConnId} {buffer : ClientBuffer}
    (h : ∀ e ∈ effects, Answers s c e) :
    ∀ e ∈ .consume c buffer :: effects, e.keepsOwners = true :=
  List.forall_mem_cons.mpr ⟨rfl, fun e he => answers_keepsOwners (h e he)⟩

theorem Alive.add {freed : List ConnId} (h : Alive s freed) {c : ConnId} {fd : Int}
    {memory : ClientMemory} (hpre : (Effect.addClient c fd memory).Admissible s)
    (hread : ¬ s.ReadLocked) :
    Alive ((s.apply (.addClient c fd memory)).goto t (.added fd)) freed := by
  obtain ⟨-, -, hzero, -⟩ := hpre
  refine h.keep (s.pc_apply _) ?_ ?_ nofun (fun hlocked => absurd hlocked hread)
    (List.forall_mem_nil _)
  · intro key d hkey hget
    change (s.registry.clientsMap.set (fdKey fd) c).get key = some d at hget
    rw [ChainTable.get_set] at hget
    split at hget
    next heq => exact ⟨fd, heq⟩
    next => exact h.keys key d hkey hget
  · intro d hd
    rw [client_addClient_of_ne]
    rintro rfl
    exact hd hzero

/-- The registry after a name was entered for the client of a descriptor. -/
theorem get_mapName {fd : Int} {c : ConnId} (hget : s.byFd fd = some c) (cn key : CStr) :
    (s.apply (.mapName fd cn)).registry.clientsMap.get key =
      if key = cn then some c else s.registry.clientsMap.get key := by
  have hget' : s.registry.byFd fd = some c := hget
  change (s.registry.setName fd cn).2.clientsMap.get key = _
  rw [Registry.setName, hget']
  exact ChainTable.get_set ..

theorem Alive.mapName {freed : List ConnId} (h : Alive s freed) {r : Ref} {c : ConnId} {cn : CStr}
    (hcn : isFdKey cn = false) (hget : s.byFd r.fd = some c) :
    Alive ((s.apply (.mapName r.fd cn)).goto t (.writeName r c cn)) freed := by
  refine h.keep (s.pc_apply _) ?_ (fun d _ => by rw [client_mapName]) nofun
    (fun _ => byFd_mapName s r.fd hcn) (List.forall_mem_nil _)
  intro key d hkey hd
  have hne : key ≠ cn := by
    rintro rfl
    exact Bool.false_ne_true (hcn.symm.trans hkey)
  rw [get_mapName hget, if_neg hne] at hd
  exact h.keys key d hkey hd

/-- The client that is taken out of the registry is nobody else's to tear down. -/
theorem Alive.unregister {freed : List ConnId} (h : Alive s freed) (ho : OwnedSys s) {fd : Int}
    {c : ConnId} {rest : List Int} (hread : ¬ s.ReadLocked) (hget : s.byFd fd = some c) :
    Alive ((s.apply (.unregister fd)).goto t (.destroy c rest)) freed := by
  have hkeys (key : CStr) (d : ConnId) (hkey : isFdKey key = true)
      (hleft : (s.apply (.unregister fd)).registry.clientsMap.get key = some d) :
      ∃ n, key = fdKey n := h.keys key d hkey (get_of_get_unregister hleft)
  refine h.keep (s.pc_apply _) hkeys (fun d _ => by rw [client_unregister]) ?_
    (fun hlocked => absurd hlocked hread) (List.forall_mem_nil _)
  rintro d ⟨⟩
  obtain ⟨hfd, hpos⟩ := ho.shared.entry fd c hget
  exact ⟨hfd ▸ hpos, fun u hu => ho.not_byFd_of_tearsDown hu fd hget⟩

theorem Alive.destroy {freed : List ConnId} (h : Alive s freed) {c : ConnId} {rest : List Int}
    (hpc : s.pc t = .destroy c rest) :
    Alive ((s.apply (.tearDown c)).goto t (.sweep rest)) (c :: freed) := by
  have hdoomed : (s.pc t).tearsDown = some c := by rw [hpc]; rfl
  have hpos := h.doomed t c hdoomed
  have hfd {d : ConnId} (hd : d ≠ c) : ((s.apply (.tearDown c)).client d).fd = (s.client d).fd :=
    congrArg Client.fd (client_tearDown_of_ne s hd)
  have hnew : c ∉ freed := fun hc => lt_asymm hpos (h.closed c hc)
  refine h.goto (s.pc_apply _) h.keys ?_ nofun (fun _ _ => rfl) (List.forall_mem_nil _) ?_
    (List.nodup_cons.mpr ⟨hnew, h.nodup⟩)
  · intro u hu d hd
    rw [hfd]
    · exact h.doomed u d hd
    · rintro rfl
      exact hu (h.single u t d hd hdoomed)
  · intro d hd
    by_cases hdc : d = c
    · rw [hdc]
      change ((s.tearDown c).client c).fd < 0
      rw [fd_tearDown_self, if_pos hpos]
      decide
    · rw [hfd hdc]
      exact h.closed d ((List.mem_cons.mp hd).resolve_left hdc)

/-- A scan starts with registered clients. -/
theorem Alive.registered_of_swept {freed : List ConnId} (h : Alive s freed) {c : ConnId}
    (hc : c ∈ s.sweptClients) : ∃ n, s.byFd n = some c := by
  obtain ⟨key, hkey, hget⟩ := (s.mem_sweptClients c).mp hc
  obtain ⟨n, rfl⟩ := h.keys key c hkey hget
  exact ⟨n, hget⟩

theorem Alive.move {freed : List ConnId} (h : Alive s freed) (ho : OwnedSys s)
    (hmove : Move s t input effects next) :
    Alive ((s.applyAll effects).goto t next) ((s.pc t).tearsDown.toList ++ freed) := by
  have hadmissible {e : Effect} (he : e ∈ effects) : e.Admissible s := ho.admissible hmove he
  -- All moves but one free nothing.
  have hkeep (hpc : (s.pc t).tearsDown = none) {x : Sys} (hx : Alive x freed) :
      Alive x ((s.pc t).tearsDown.toList ++ freed) := by
    rw [hpc]
    exact hx
  have hquiet (heffects : ∀ e ∈ effects, e.keepsOwners = true) (hnext : next.tearsDown = none)
      (hscans : ∀ c ∈ next.scans, ∃ n, s.byFd n = some c) :
      Alive ((s.applyAll effects).goto t next) freed := by
    have hsame := sameOwners_applyAll s heffects
    exact h.quiet (s.pc_applyAll _) hsame.clientsMap hsame.fd hnext hscans
  cases hmove with
  | acceptVault ht hin hpc hpos hfree | acceptLobby ht hin hpc hpos hfree
  | closeLobby ht hin hpc howner hlobby =>
    exact hkeep (by rw [hpc]; rfl)
      (h.quiet (s.pc_applyAll _) rfl (fun _ => rfl) rfl (List.forall_mem_nil _))
  | add hin hpc hread hmemory =>
    exact hkeep (by rw [hpc]; rfl) (h.add (hadmissible List.mem_cons_self) hread)
  | mapName hpc hread hget =>
    exact hkeep (by rw [hpc]; rfl) (h.mapName (hadmissible List.mem_cons_self) hget)
  | unregister hpc hread hget => exact hkeep (by rw [hpc]; rfl) (h.unregister ho hread hget)
  | destroy hpc hfree =>
    rw [hpc]
    exact h.destroy hpc
  | startScan ht hpc =>
    exact hkeep (by rw [hpc]; rfl)
      (hquiet (List.forall_mem_nil _) rfl fun _ => h.registered_of_swept)
  | scan hpc hfree =>
    refine hkeep (by rw [hpc]; rfl) (hquiet (List.forall_mem_nil _) rfl fun c hc => ?_)
    refine h.scanned t c ?_
    rw [hpc]
    exact List.mem_cons_of_mem _ hc
  | answered hpc hbuf heffects =>
    exact hkeep (by rw [hpc]; rfl)
      (hquiet (keepsOwners_of_answers heffects) rfl (List.forall_mem_nil _))
  | _ =>
    have hpc := ‹s.pc t = _›
    exact hkeep (by rw [hpc]; rfl) (hquiet (List.all_eq_true.mp rfl) rfl (List.forall_mem_nil _))

/-! ## Where the clients are -/

/-- Every client that was made is registered, or about to be torn down, or freed. -/
def Accounted (s : Sys) (freed : List ConnId) : Prop :=
  ∀ c, (s.client c).fd ≠ 0 →
    (∃ n, s.byFd n = some c) ∨ (∃ t, (s.pc t).tearsDown = some c) ∨ c ∈ freed

theorem Accounted.goto {freed : List ConnId} (h : Accounted s freed) (hpc : s'.pc = s.pc)
    (hfd : ∀ c, (s'.client c).fd ≠ 0 → (s.client c).fd ≠ 0 ∨ ∃ n, s'.byFd n = some c)
    (hbyFd : ∀ n c, s.byFd n = some c → (∃ m, s'.byFd m = some c) ∨ next.tearsDown = some c) :
    Accounted (s'.goto t next) ((s.pc t).tearsDown.toList ++ freed) := by
  intro c hc
  rcases hfd c hc with hold | hadded
  · rcases h c hold with ⟨n, hn⟩ | ⟨u, hu⟩ | hfreed
    · rcases hbyFd n c hn with hkept | hnext
      · exact Or.inl hkept
      · exact Or.inr (Or.inl ⟨t, by rw [Sys.pc_goto_self]; exact hnext⟩)
    · by_cases hut : u = t
      · refine Or.inr (Or.inr (List.mem_append_left _ ?_))
        rw [← hut, hu]
        exact List.mem_singleton_self c
      · refine Or.inr (Or.inl ⟨u, ?_⟩)
        rw [Sys.pc_goto_of_ne s' hut, hpc]
        exact hu
    · exact Or.inr (Or.inr (List.mem_append_right _ hfreed))
  · exact Or.inl hadded

theorem Accounted.move {freed : List ConnId} (h : Accounted s freed) (ho : OwnedSys s)
    (hmove : Move s t input effects next) :
    Accounted ((s.applyAll effects).goto t next) ((s.pc t).tearsDown.toList ++ freed) := by
  refine h.goto (s.pc_applyAll _) ?_ ?_
  · -- Only the client that is added comes to have a descriptor.
    intro d hd
    have hquiet (heffects : ∀ e ∈ effects, e.keepsOwners = true) :
        (s.client d).fd ≠ 0 ∨ ∃ n, (s.applyAll effects).byFd n = some d := by
      rw [(sameOwners_applyAll s heffects).fd] at hd
      exact Or.inl hd
    cases hmove with
    | acceptVault ht hin hpc hpos hfree | acceptLobby ht hin hpc hpos hfree
    | closeLobby ht hin hpc howner hlobby => exact Or.inl hd
    | @add c fd memory hin hpc hread hmemory =>
      by_cases hdc : d = c
      · exact Or.inr ⟨fd, (byFd_addClient ..).trans (by rw [if_pos rfl, hdc])⟩
      · change ((s.apply (.addClient c fd memory)).client d).fd ≠ 0 at hd
        rw [client_addClient_of_ne s hdc] at hd
        exact Or.inl hd
    | @mapName r cn c hpc hread hget =>
      change ((s.apply (.mapName r.fd cn)).client d).fd ≠ 0 at hd
      rw [client_mapName] at hd
      exact Or.inl hd
    | @unregister fd rest c hpc hread hget =>
      change ((s.apply (.unregister fd)).client d).fd ≠ 0 at hd
      rw [client_unregister] at hd
      exact Or.inl hd
    | @destroy c rest hpc hfree =>
      by_cases hdc : d = c
      · -- the client had a descriptor before it was torn down
        have hpoint := ho.points t
        rw [hpc] at hpoint
        exact Or.inl (hdc ▸ hpoint.1)
      · change ((s.tearDown c).client d).fd ≠ 0 at hd
        rw [client_tearDown_of_ne s hdc] at hd
        exact Or.inl hd
    | answered hpc hbuf heffects => exact hquiet (keepsOwners_of_answers heffects)
    | _ => exact hquiet (List.all_eq_true.mp rfl)
  · intro n c hn
    rcases ho.byFd_of_move hmove hn with hkept | ⟨-, rest, rfl⟩
    · exact Or.inl ⟨n, hkept⟩
    · exact Or.inr rfl

/-! ## Runs -/

/-- The broker with the clients it has freed. -/
abbrev Sys.stepFreed : Sys × List ConnId → Act → Option (Sys × List ConnId) :=
  noted Sys.step Sys.noteFreed

/-- What every run keeps. -/
structure LifetimeSys (p : Sys × List ConnId) : Prop where
  owned : OwnedSys p.1
  alive : Alive p.1 p.2
  accounted : Accounted p.1 p.2

theorem LifetimeSys.step {p p' : Sys × List ConnId} {a : Act} (h : LifetimeSys p)
    (hname : a.NamePlain) (hs : Sys.stepFreed p a = some p') : LifetimeSys p' := by
  obtain ⟨s', freed'⟩ := p'
  obtain ⟨hstep, rfl⟩ := noted_eq_some_iff.mp hs
  obtain ⟨effects, next, hmove, rfl⟩ := Sys.exists_move_of_step hstep
  exact ⟨h.owned.move hname hmove, h.alive.move h.owned hmove, h.accounted.move h.owned hmove⟩

theorem lifetimeSys_init (policy : Policy) (db : Database) :
    LifetimeSys (.init policy db, []) := by
  have howned := ownedSys_init policy db
  refine ⟨howned, ⟨?_, ?_, ?_, ?_, List.forall_mem_nil _, List.nodup_nil⟩, ?_⟩
  · intro key c _ hget
    exact absurd rfl (howned.shared.mapped key c hget)
  · intro t c hc
    cases hc
  · intro t u c hc
    cases hc
  · intro t c hc
    cases hc
  · intro c hc
    exact absurd rfl hc

theorem lifetimeSys_of_reaches {policy : Policy} {db : Database} {p : Sys × List ConnId}
    (h : Reaches Sys.stepFreed (fun _ a => a.NamePlain) (.init policy db, []) p) :
    LifetimeSys p :=
  h.invariant (lifetimeSys_init policy db) fun _ _ _ hinv hok hs => hinv.step hok hs

/-- No client is freed twice and none is lost: a client that was made is registered, or a thread
is about to tear it down, or it is freed, and it is only one of these. -/
theorem clients_are_freed_once (policy : Policy) (db : Database) (s : Sys) (freed : List ConnId)
    (h : Reaches Sys.stepFreed (fun _ a => a.NamePlain) (.init policy db, []) (s, freed)) :
    freed.Nodup ∧
    (∀ c, (s.client c).fd ≠ 0 ↔
      (∃ n, s.byFd n = some c) ∨ (∃ t, (s.pc t).tearsDown = some c) ∨ c ∈ freed) ∧
    (∀ n c, s.byFd n = some c → c ∉ freed ∧ ∀ t, (s.pc t).tearsDown ≠ some c) ∧
    ∀ t c, (s.pc t).tearsDown = some c → c ∉ freed ∧
      ∀ u, (s.pc u).tearsDown = some c → u = t := by
  obtain ⟨howned, halive, haccounted⟩ := lifetimeSys_of_reaches h
  refine ⟨halive.nodup, ?_, ?_, ?_⟩
  · intro c
    refine ⟨haccounted c, ?_⟩
    rintro (⟨n, hn⟩ | ⟨t, ht⟩ | hfreed)
    · obtain ⟨hfd, hpos⟩ := howned.shared.entry n c hn
      rw [hfd]
      exact hpos.ne'
    · exact (halive.doomed t c ht).ne'
    · exact (halive.closed c hfreed).ne
  · intro n c hn
    refine ⟨halive.not_freed_of_byFd howned.shared hn, ?_⟩
    intro t ht
    exact howned.not_byFd_of_tearsDown ht n hn
  · intro t c ht
    exact ⟨fun hc => lt_asymm (halive.doomed t c ht) (halive.closed c hc),
      fun u hu => halive.single u t c hu ht⟩

/-- A connection is closed by its peer, and the next one gets its descriptor. -/
def secondActs : List Act :=
  acceptActs 5 ++ handshakeActs 5 (ascii "pump") ++ hangupActs 5 ++ acceptActs 5

/-- The first client is freed and the second one registered. -/
theorem clients_are_freed_once_secondActs :
    ∃ s, Reaches Sys.stepFreed (fun _ a => a.NamePlain) (.init .none .empty, []) (s, [0]) ∧
      s.byFd 5 = some 1 ∧ (s.client 0).fd ≠ 0 ∧ (s.client 1).fd ≠ 0 ∧
      ∀ t, (s.pc t).tearsDown ≠ some 1 := by
  have hrun : (run (guarded Sys.stepFreed fun _ a => a.NamePlain) (.init .none .empty, [])
      secondActs).map (fun p => (p.1.byFd 5, p.2)) = some (some 1, [0]) := by decide +kernel
  obtain ⟨⟨s, freed⟩, hs, hproj⟩ := Option.map_eq_some_iff.mp hrun
  obtain ⟨hget, rfl⟩ := Prod.mk.inj hproj
  have hreach := reaches_of_run hs
  obtain ⟨-, hmade, hregistered, -⟩ := clients_are_freed_once _ _ s _ hreach
  exact ⟨s, hreach, hget, (hmade 0).mpr (Or.inr (Or.inr List.mem_cons_self)),
    (hmade 1).mpr (Or.inl ⟨5, hget⟩), (hregistered 5 1 hget).2⟩

/-- At a protected point a client is reached through the registry, a lock, a scan or a removal. -/
theorem Sys.reached_of_touches {c : ConnId} (hpc : (s.pc t).unprotected = false)
    (hc : s.touches t input = some c) :
    (∃ n, s.byFd n = some c) ∨ (s.pc t).holds = some c ∨ (s.pc t).tearsDown = some c ∨
      c ∈ (s.pc t).scans := by
  unfold Sys.touches at hc
  split at hc
  next hq =>
    rw [hq] at hpc
    cases hpc
  next r hq => exact Or.inl ⟨r.fd, hc⟩
  next r topic hq => exact Or.inl ⟨r.fd, hc⟩
  next fd rest hq => exact Or.inl ⟨fd, hc⟩
  next fd rest hq => exact Or.inl ⟨fd, hc⟩
  next r d hq => exact Or.inr (Or.inl (by rw [hq]; exact hc))
  next r d hq => exact Or.inr (Or.inl (by rw [hq]; exact hc))
  next hq => exact Or.inr (Or.inl (by rw [hq]; exact hc))
  next hq => exact Or.inr (Or.inl (by rw [hq]; exact hc))
  next hq =>
    rw [hq] at hpc
    cases hpc
  next hq => exact Or.inr (Or.inr (Or.inl (by rw [hq]; exact hc)))
  next d todo now found hq =>
    refine Or.inr (Or.inr (Or.inr ?_))
    rw [hq, ← Option.some.inj hc]
    exact List.mem_cons_self
  · cases hc

theorem LifetimeSys.not_freed_of_touches {freed : List ConnId} (h : LifetimeSys (s, freed))
    {c : ConnId} (hpc : (s.pc t).unprotected = false) (hc : s.touches t input = some c) :
    c ∉ freed := by
  obtain ⟨howned, halive, -⟩ := h
  have hopen (hpos : 0 < (s.client c).fd) : c ∉ freed := fun hfreed =>
    lt_asymm hpos (halive.closed c hfreed)
  rcases Sys.reached_of_touches hpc hc with ⟨n, hn⟩ | hholds | hdoomed | hscan
  · exact halive.not_freed_of_byFd howned.shared hn
  · exact hopen (howned.open_of_holds hholds)
  · exact hopen (halive.doomed t c hdoomed)
  · obtain ⟨n, hn⟩ := halive.scanned t c hscan
    exact halive.not_freed_of_byFd howned.shared hn

/-- What a step looks into is not freed, except for the copy of a name and for the clients that
the command line finds under a host name. -/
theorem no_use_after_free (policy : Policy) (db : Database) (s : Sys) (freed : List ConnId)
    (h : Reaches Sys.stepFreed (fun _ a => a.NamePlain) (.init policy db, []) (s, freed))
    (t : Thread) (input : Input) (c : ConnId) (hpc : (s.pc t).unprotected = false)
    (hc : s.touches t input = some c) : c ∉ freed :=
  (lifetimeSys_of_reaches h).not_freed_of_touches hpc hc

/-- A worker is about to lock the second client when the first one is freed. -/
theorem no_use_after_free_secondActs :
    ∃ s, Reaches Sys.stepFreed (fun _ a => a.NamePlain) (.init .none .empty, []) (s, [0]) ∧
      s.touches (.worker 0) .go = some 1 ∧ 1 ∉ [0] := by
  have hrun : (run (guarded Sys.stepFreed fun _ a => a.NamePlain) (.init .none .empty, [])
      (secondActs ++ reportActs 5 ++ [⟨.worker 0, .go⟩])).map
      (fun p => ((p.1.pc (.worker 0)).unprotected, p.1.touches (.worker 0) .go, p.2)) =
      some (false, some 1, [0]) := by decide +kernel
  obtain ⟨⟨s, freed⟩, hs, hproj⟩ := Option.map_eq_some_iff.mp hrun
  obtain ⟨hpc, hproj⟩ := Prod.mk.inj hproj
  obtain ⟨htouches, rfl⟩ := Prod.mk.inj hproj
  have hreach := reaches_of_run hs
  exact ⟨s, hreach, htouches, no_use_after_free _ _ s _ hreach _ _ 1 hpc htouches⟩

end AdMQ
