import AdMQ.Broker.Threads.Identity
import AdMQ.Broker.Threads.Lifetime

/-!
# Host names lead to live clients

`client_set_hostname` enters the host name of a client into the registry in one section
and writes it into the client in another one, and `client_remove` finds the entry by the
name in the client. When a client is removed between the two sections, the worker writes
into a freed client, and the entry stays behind and leads the command line to it.

When this does not happen, and the names are as the registry expects them, every entry
of the registry leads to a registered client, so no step looks into a freed one: the
memory that a client had before it was freed makes no difference.
-/

namespace AdMQ

open Core

variable {policy : Policy} {s s' : Sys} {t : Thread} {input : Input} {effects : List Effect}
variable {next : Pc}

/-- The condition on a step: beside the conditions on numbers, names and removals, accepted common
names are not empty. -/
def Sys.CopiesGuarded (s : Sys) (a : Act) : Prop :=
  s.NamesGuarded a ∧ ∀ cn ∈ a.input.commonName?, cn ≠ []

instance (s : Sys) (a : Act) : Decidable (s.CopiesGuarded a) :=
  inferInstanceAs (Decidable (_ ∧ _))

/-! ## The invariant -/

/-- A host name that leads to a client: the client is registered and authenticated, and it bears
the name or gets it next. -/
structure Led (s : Sys) (key : CStr) (c : ConnId) : Prop where
  ne_nil : key ≠ []
  registered : ∃ n, s.byFd n = some c
  authenticated : (s.client c).authStatus = .success
  borne : (s.client c).hostname = key ∨ ∃ t, (s.pc t).copying = some c

/-- What a thread knows of the host names of the client that it is about to name. -/
def PointLed (s : Sys) : Pc → Prop
  | .setName r cn => cn ≠ [] ∧ (s.client r.conn).authStatus = .success ∧
      ∀ key, isFdKey key = false → s.registry.clientsMap.get key ≠ some r.conn
  | .writeName _ c cn =>
      ∀ key, isFdKey key = false → s.registry.clientsMap.get key = some c → key = cn
  | _ => True

/-- The invariant of the broker. -/
structure NameKeys (s : Sys) : Prop where
  led : ∀ key c, isFdKey key = false → s.registry.clientsMap.get key = some c → Led s key c
  points : ∀ t, PointLed s (s.pc t)

/-- A point keeps what it knows when no host name comes to lead to its client. -/
theorem PointLed.mono {p : Pc} (h : PointLed s p)
    (hauth : ∀ c, p.naming = some c → (s.client c).authStatus = .success →
      (s'.client c).authStatus = .success)
    (hkeys : ∀ c, p.naming = some c ∨ p.copying = some c → ∀ key, isFdKey key = false →
      s'.registry.clientsMap.get key = some c → s.registry.clientsMap.get key = some c) :
    PointLed s' p := by
  cases p with
  | setName r cn =>
    obtain ⟨hne, hold, hnone⟩ := h
    exact ⟨hne, hauth _ rfl hold,
      fun key hkey hget => hnone key hkey (hkeys _ (Or.inl rfl) key hkey hget)⟩
  | writeName r c cn => exact fun key hkey hget => h key hkey (hkeys c (Or.inr rfl) key hkey hget)
  | _ => trivial

/-- What a host name leads to after a step. The thread of the step may have been the one that was
about to write the name. -/
theorem Led.goto {key : CStr} {c : ConnId} (h : Led s key c) (hpc : s'.pc = s.pc)
    (hregistered : ∀ n, s.byFd n = some c → ∃ m, s'.byFd m = some c)
    (hauth : (s.client c).authStatus = .success → (s'.client c).authStatus = .success)
    (hhost : (s.client c).hostname = key → (s'.client c).hostname = key)
    (hcopied : (s.pc t).copying = some c → (s'.client c).hostname = key) :
    Led (s'.goto t next) key c where
  ne_nil := h.ne_nil
  registered := by
    obtain ⟨n, hn⟩ := h.registered
    exact hregistered n hn
  authenticated := hauth h.authenticated
  borne := by
    rcases h.borne with hold | ⟨u, hu⟩
    · exact Or.inl (hhost hold)
    · by_cases hut : u = t
      · exact Or.inl (hcopied (hut ▸ hu))
      · refine Or.inr ⟨u, ?_⟩
        rw [Sys.pc_goto_of_ne s' hut, hpc]
        exact hu

theorem NameKeys.goto (hpc : s'.pc = s.pc)
    (hled : ∀ key c, isFdKey key = false → s'.registry.clientsMap.get key = some c →
      Led (s'.goto t next) key c)
    (hpoint : PointLed s' next) (hothers : ∀ u, u ≠ t → PointLed s' (s.pc u)) :
    NameKeys (s'.goto t next) := by
  have hsame {p : Pc} (hp : PointLed s' p) : PointLed (s'.goto t next) p := by
    cases p with
    | setName r cn => exact hp
    | writeName r c cn => exact hp
    | _ => trivial
  exact ⟨hled, Sys.forall_pc_goto (P := fun _ p => PointLed _ p) hpc (hsame hpoint)
    fun u hu => hsame (hothers u hu)⟩

/-! ## Effects that leave the host names alone -/

/-- The effects that change neither the registry nor a name. -/
def Effect.keepsKeys : Effect → Bool
  | .addClient .. | .mapName .. | .copyName .. | .unregister .. => false
  | _ => true

/-- Two states with the same registry and the same names; clients stay authenticated. -/
structure SameKeys (s s' : Sys) : Prop where
  clientsMap : s'.registry.clientsMap = s.registry.clientsMap
  hostname : ∀ c, (s'.client c).hostname = (s.client c).hostname
  authStatus : ∀ c, (s.client c).authStatus = .success → (s'.client c).authStatus = .success

theorem SameKeys.trans {s'' : Sys} (h : SameKeys s s') (h' : SameKeys s' s'') : SameKeys s s'' where
  clientsMap := h'.clientsMap.trans h.clientsMap
  hostname c := (h'.hostname c).trans (h.hostname c)
  authStatus c hc := h'.authStatus c (h.authStatus c hc)

theorem SameKeys.byFd (h : SameKeys s s') (n : Int) : s'.byFd n = s.byFd n :=
  congrArg (·.get (fdKey n)) h.clientsMap

theorem sameKeys_modifyClient (s : Sys) (c : ConnId) {f : Client → Client}
    (hhost : ∀ k, (f k).hostname = k.hostname)
    (hauth : ∀ k, k.authStatus = .success → (f k).authStatus = .success) :
    SameKeys s (s.modifyClient c f) := by
  refine ⟨rfl, fun d => s.client_modifyClient_eq c d (g := Client.hostname) hhost, ?_⟩
  intro d hd
  by_cases hdc : d = c
  · subst hdc
    rw [Sys.client_modifyClient_self]
    exact hauth _ hd
  · rw [Sys.client_modifyClient_of_ne s hdc]
    exact hd

theorem sameKeys_apply (s : Sys) {e : Effect} (h : e.keepsKeys = true) :
    SameKeys s (s.apply e) := by
  cases e with
  | addClient | mapName | copyName | unregister => cases h
  | startSsl c => exact sameKeys_modifyClient s c (fun _ => rfl) fun _ hk => hk
  | receive c chunk => exact sameKeys_modifyClient s c (fun _ => rfl) fun _ hk => hk
  | consume c buffer => exact sameKeys_modifyClient s c (fun _ => rfl) fun _ hk => hk
  | authenticate c cn =>
    have hsame := sameKeys_modifyClient s c
      (f := fun k => { k with authStatus := .success, state := .idle }) (fun _ => rfl)
      fun _ _ => rfl
    exact ⟨rfl, hsame.hostname, hsame.authStatus⟩
  | tearDown c =>
    have hsame := sameKeys_modifyClient s c (f := Client.tornDown) (fun _ => rfl) fun _ hk => hk
    exact ⟨rfl, hsame.hostname, hsame.authStatus⟩
  | _ => exact ⟨rfl, fun _ => rfl, fun _ hc => hc⟩

theorem sameKeys_applyAll (s : Sys) (h : ∀ e ∈ effects, e.keepsKeys = true) :
    SameKeys s (s.applyAll effects) := by
  refine Sys.applyAll_induction (P := SameKeys s) ?_ ⟨rfl, fun _ => rfl, fun _ hc => hc⟩
  intro s' e he hs
  exact hs.trans (sameKeys_apply s' (h e he))

/-- A step that leaves the registry and the names alone. -/
theorem NameKeys.quiet (h : NameKeys s) (hs : SameKeys s s') (hpc : s'.pc = s.pc)
    (hcopying : (s.pc t).copying = none) (hpoint : PointLed s' next) :
    NameKeys (s'.goto t next) := by
  have hothers (u : Thread) : PointLed s' (s.pc u) := by
    refine (h.points u).mono (fun c _ => hs.authStatus c) fun c _ key _ hget => ?_
    rwa [hs.clientsMap] at hget
  refine .goto hpc ?_ hpoint fun u _ => hothers u
  intro key c hkey hget
  rw [hs.clientsMap] at hget
  refine (h.led key c hkey hget).goto hpc (fun n hn => ⟨n, (hs.byFd n).trans hn⟩) (hs.authStatus c)
    (hs.hostname c).trans ?_
  intro hc
  rw [hcopying] at hc
  cases hc

/-! ## Steps -/

/-- A client is added: its descriptor key is no host name, and no host name leads to it yet. -/
theorem NameKeys.add (h : NameKeys s) (ho : OwnedSys s) (ht : Tokens s) {c : ConnId} {fd : Int}
    {memory : ClientMemory} (hpc : s.pc t = .accepted c fd)
    (hpre : (Effect.addClient c fd memory).Admissible s) :
    NameKeys ((s.apply (.addClient c fd memory)).goto t (.added fd)) := by
  obtain ⟨hmain, -⟩ : PointOwned s t (.accepted c fd) := hpc ▸ ho.points t
  have hmap {key : CStr} (hkey : isFdKey key = false) :
      (s.apply (.addClient c fd memory)).registry.clientsMap.get key =
        s.registry.clientsMap.get key :=
    (ChainTable.get_set ..).trans (if_neg (ne_fdKey_of_not_isFdKey hkey fd))
  have hregistered {d : ConnId} (n : Int) (hn : s.byFd n = some d) :
      ∃ m, (s.apply (.addClient c fd memory)).byFd m = some d :=
    ⟨n, byFd_addClient_of_byFd ho.shared hpre hn⟩
  refine .goto (s.pc_apply _) ?_ trivial ?_
  · intro key d hkey hget
    rw [hmap hkey] at hget
    have hdc : d ≠ c := by
      rintro rfl
      exact ho.shared.mapped key d hget hpre.2.2.1
    refine (h.led key d hkey hget).goto (s.pc_apply _) hregistered ?_ ?_ ?_
    · rw [client_addClient_of_ne s hdc]
      exact id
    · rw [client_addClient_of_ne s hdc]
      exact id
    · intro hcopying
      rw [hpc] at hcopying
      cases hcopying
  · intro u _
    refine (h.points u).mono ?_ ?_
    · -- the accept loop still has the new connection, so no worker has a task of it
      intro d hnaming hauth
      obtain ⟨-, r, hr, rfl⟩ := Pc.ref_of_naming hnaming
      have hready : s.Ready fd := Or.inr (Or.inr ⟨c, hmain ▸ hpc⟩)
      rw [client_addClient_of_ne s (ht.ready fd c hready hpre.2.1 r (Or.inr ⟨u, hr⟩))]
      exact hauth
    · intro d _ key hkey hget
      rwa [hmap hkey] at hget

/-- The certificate of a client is accepted: no host name leads to the client. -/
theorem NameKeys.verified (h : NameKeys s) (ht : Tokens s) {r : Ref} {c : ConnId} {cn : CStr}
    (hpc : s.pc t = .locked r c) (hauth : (s.client c).authStatus = .pending) (hcn : cn ≠ []) :
    NameKeys ((s.applyAll [.startSsl c, .authenticate c cn]).goto t (.setName r cn)) := by
  obtain ⟨q, hq, rfl⟩ := ht.held t c (by rw [hpc]; rfl)
  rw [hpc] at hq
  obtain rfl := Option.some.inj hq
  refine h.quiet (sameKeys_applyAll s (List.all_eq_true.mp rfl)) (s.pc_applyAll _)
    (by rw [hpc]; rfl) ⟨hcn, ?_, ?_⟩
  · change (((s.apply (.startSsl r.conn)).modifyClient r.conn fun k =>
      { k with authStatus := .success, state := .idle }).client r.conn).authStatus = .success
    rw [Sys.client_modifyClient_self]
  · intro key hkey hget
    have hsuccess := (h.led key r.conn hkey hget).authenticated
    rw [hauth] at hsuccess
    cases hsuccess

/-- Two threads do not name one client. -/
theorem Tokens.naming_ne (h : Tokens s) {r : Ref} {cn : CStr} (hpc : s.pc t = .setName r cn)
    {u : Thread} (hu : u ≠ t) : (s.pc u).naming ≠ some r.conn := by
  intro hnaming
  obtain ⟨-, q, hq, hconn⟩ := Pc.ref_of_naming hnaming
  exact hu (h.single u t q r hq (by rw [hpc]; rfl) hconn)

theorem Named.naming_of_copying (h : Named s) {u : Thread} {c : ConnId}
    (hc : (s.pc u).copying = some c) : (s.pc u).naming = some c := by
  have hpoint := h.points u
  cases hpc : s.pc u with
  | writeName r d cn =>
    rw [hpc] at hc hpoint
    exact (congrArg some hpoint.1.symm).trans hc
  | _ =>
    rw [hpc] at hc
    cases hc

/-- The name is entered into the registry: it is the first one that leads to the client. -/
theorem NameKeys.mapName (h : NameKeys s) (hi : IdentitySys policy s) {r : Ref} {c : ConnId}
    {cn : CStr} (hpc : s.pc t = .setName r cn) (hget : s.byFd r.fd = some c) :
    NameKeys ((s.apply (.mapName r.fd cn)).goto t (.writeName r c cn)) := by
  obtain ⟨hne, hauth, hnone⟩ : PointLed s (.setName r cn) := hpc ▸ h.points t
  have hplain : PointOwned s t (.setName r cn) := hpc ▸ hi.owned.points t
  obtain rfl := hi.tokens.conn_of_byFd hi.owned.shared (Or.inr ⟨t, by rw [hpc]; rfl⟩) hget
  have hbyFd := byFd_mapName s r.fd hplain
  have hregistered {d : ConnId} (n : Int) (hn : s.byFd n = some d) :
      ∃ m, (s.apply (.mapName r.fd cn)).byFd m = some d := ⟨n, (hbyFd n).trans hn⟩
  refine .goto (s.pc_apply _) ?_ ?_ ?_
  · intro key d hkey hd
    rw [get_mapName hget] at hd
    split at hd
    next heq =>
      obtain rfl := Option.some.inj hd
      refine ⟨heq ▸ hne, hregistered r.fd hget, ?_, Or.inr ⟨t, ?_⟩⟩
      · change ((s.apply (.mapName r.fd cn)).client r.conn).authStatus = .success
        rw [client_mapName]
        exact hauth
      · rw [Sys.pc_goto_self]
        rfl
    next =>
      refine (h.led key d hkey hd).goto (s.pc_apply _) hregistered ?_ ?_ ?_
      · rw [client_mapName]
        exact id
      · rw [client_mapName]
        exact id
      · intro hcopying
        rw [hpc] at hcopying
        cases hcopying
  · intro key hkey hd
    rw [get_mapName hget] at hd
    split at hd
    next heq => exact heq
    next => exact absurd hd (hnone key hkey)
  · intro u hu
    refine (h.points u).mono ?_ ?_
    · intro d _ hd
      rw [client_mapName]
      exact hd
    · intro d hd key hkey hled
      rw [get_mapName hget] at hled
      split at hled
      next =>
        obtain rfl := Option.some.inj hled
        exact absurd (hd.elim id hi.named.naming_of_copying) (hi.tokens.naming_ne hpc hu)
      next => exact hled

/-- The name is written into the client. -/
theorem NameKeys.copyName (h : NameKeys s) (hi : IdentitySys policy s) {r : Ref} {c : ConnId}
    {cn : CStr} (hpc : s.pc t = .writeName r c cn) :
    NameKeys ((s.apply (.copyName c cn)).goto t (.rearm r)) := by
  have honly : PointLed s (.writeName r c cn) := hpc ▸ h.points t
  obtain ⟨-, -, hlen⟩ : PointNamed s.log (.writeName r c cn) := hpc ▸ hi.named.points t
  have happly := apply_copyName cn (hi.copies.heir_eq hi.owned.shared (t := t) (by rw [hpc]; rfl))
  have hself : ((s.apply (.copyName c cn)).client c).hostname = cn := by
    rw [happly, Sys.client_modifyClient_self, Client.hostname_copyHostname _ hlen]
  have hauth (d : ConnId) :
      ((s.apply (.copyName c cn)).client d).authStatus = (s.client d).authStatus :=
    s.client_modifyClient_eq (s.heir c) d (g := Client.authStatus) fun _ => rfl
  refine .goto (s.pc_apply _) ?_ trivial fun u _ => (h.points u).mono
    (fun d _ hd => (hauth d).trans hd) fun _ _ _ _ hget => hget
  intro key d hkey hget
  have hled := h.led key d hkey hget
  by_cases hdc : d = c
  · subst hdc
    obtain rfl := honly key hkey hget
    exact hled.goto (s.pc_apply _) (fun n hn => ⟨n, hn⟩) (hauth d).trans (fun _ => hself)
      fun _ => hself
  · have hother : (s.apply (.copyName c cn)).client d = s.client d := by
      rw [happly, s.client_modifyClient_of_ne hdc]
    refine hled.goto (s.pc_apply _) (fun n hn => ⟨n, hn⟩) (hauth d).trans ?_ ?_
    · rw [hother]
      exact id
    · intro hcopying
      rw [hpc] at hcopying
      exact absurd (Option.some.inj hcopying).symm hdc

/-- A client is taken out of the registry, and no host name leads to it any more. -/
theorem NameKeys.unregister (h : NameKeys s) {fd : Int} {c : ConnId} {rest : List Int}
    (hpc : s.pc t = .remove fd rest) (hget : s.byFd fd = some c)
    (hcopies : ∀ u, (s.pc u).copying ≠ some c) :
    NameKeys ((s.apply (.unregister fd)).goto t (.destroy c rest)) := by
  have hget' : s.registry.byFd fd = some c := hget
  have hregistered {d : ConnId} (hd : d ≠ c) (n : Int) (hn : s.byFd n = some d) :
      ∃ m, (s.apply (.unregister fd)).byFd m = some d := ⟨n, byFd_unregister_of_ne hn hget hd⟩
  refine .goto (s.pc_apply _) ?_ trivial ?_
  · intro key d hkey hleft
    have hled := h.led key d hkey (get_of_get_unregister hleft)
    have hdc : d ≠ c := by
      rintro rfl
      rcases hled.borne with hhost | ⟨u, hu⟩
      · -- the client bears the name, so its removal deletes the entry
        change (s.registry.unregister fd).2.clientsMap.get key = some d at hleft
        rw [Registry.unregister, hget'] at hleft
        exact Registry.get_dropEntries_ne (Or.inr ⟨hhost.symm, hled.ne_nil⟩) hleft
      · exact hcopies u hu
    refine hled.goto (s.pc_apply _) (hregistered hdc) ?_ ?_ ?_
    · rw [client_unregister]
      exact id
    · rw [client_unregister]
      exact id
    · intro hcopying
      rw [hpc] at hcopying
      cases hcopying
  · intro u _
    refine (h.points u).mono ?_ fun _ _ _ _ hleft => get_of_get_unregister hleft
    intro d _ hd
    rw [client_unregister]
    exact hd

/-- Every guarded step keeps the host names in order. -/
theorem NameKeys.step (h : NameKeys s) (hi : IdentitySys policy s) {a : Act}
    (hok : s.CopiesGuarded a) (hs : s.step a = some s') : NameKeys s' := by
  obtain ⟨⟨-, -, -, hcopies⟩, hgiven⟩ := hok
  obtain ⟨effects, next, hmove, rfl⟩ := Sys.exists_move_of_step hs
  have hquiet (heffects : ∀ e ∈ effects, e.keepsKeys = true)
      (hcopying : (s.pc a.thread).copying = none) (hpoint : ∀ x, PointLed x next) :
      NameKeys ((s.applyAll effects).goto a.thread next) :=
    h.quiet (sameKeys_applyAll s heffects) (s.pc_applyAll _) hcopying (hpoint _)
  cases hmove with
  | add hin hpc hread hmemory =>
    exact h.add hi.owned hi.tokens hpc
      (hi.owned.admissible (.add hin hpc hread hmemory) List.mem_cons_self)
  | @verified r c cn hin hpc hauth =>
    refine h.verified hi.tokens hpc hauth (hgiven cn ?_)
    rw [hin]
    rfl
  | mapName hpc hread hget => exact h.mapName hi hpc hget
  | copyName hpc hfree => exact h.copyName hi hpc
  | @unregister fd rest c hpc hread hget =>
    refine h.unregister hpc hget fun u hu => hcopies u c hu ?_
    rw [Sys.removing, hpc]
    exact hget
  | answered hpc hbuf heffects =>
    refine hquiet ?_ (by rw [hpc]; rfl) fun _ => trivial
    refine List.forall_mem_cons.mpr ⟨rfl, fun e he => ?_⟩
    cases heffects e he <;> rfl
  | _ =>
    exact hquiet (List.all_eq_true.mp rfl) (by rw [‹s.pc a.thread = _›]; rfl) fun _ => trivial

/-! ## Runs -/

/-- What guarded runs keep. -/
structure NameKeysSys (policy : Policy) (p : Sys × List ConnId) : Prop where
  lifetime : LifetimeSys p
  identity : IdentitySys policy p.1
  keys : NameKeys p.1

theorem NameKeysSys.step {p p' : Sys × List ConnId} {a : Act} (h : NameKeysSys policy p)
    (hok : p.1.CopiesGuarded a) (hs : Sys.stepFreed p a = some p') : NameKeysSys policy p' := by
  have hlifetime := h.lifetime.step hok.1.2.2.1 hs
  obtain ⟨s', freed'⟩ := p'
  obtain ⟨hstep, rfl⟩ := noted_eq_some_iff.mp hs
  exact ⟨hlifetime, h.identity.step hok.1 hstep, h.keys.step h.identity hok hstep⟩

theorem nameKeysSys_of_reaches {db : Database} {p : Sys × List ConnId}
    (h : Reaches Sys.stepFreed (fun p a => p.1.CopiesGuarded a) (.init policy db, []) p) :
    NameKeysSys policy p := by
  have hlifetime := lifetimeSys_init policy db
  refine h.invariant ⟨hlifetime, identitySys_of_reaches .start, ?_, fun _ => trivial⟩
    fun _ _ _ hinv hok hs => hinv.step hok hs
  intro key c _ hget
  exact absurd rfl (hlifetime.owned.shared.mapped key c hget)

/-- What a host name of the command line leads to is registered. -/
theorem NameKeysSys.registered {freed : List ConnId} (h : NameKeysSys policy (s, freed))
    {key : CStr} {c : ConnId} (hget : s.registry.clientsMap.get key = some c) :
    ∃ n, s.byFd n = some c := by
  cases hkey : isFdKey key with
  | true =>
    obtain ⟨n, rfl⟩ := h.lifetime.alive.keys key c hkey hget
    exact ⟨n, hget⟩
  | false => exact (h.keys.led key c hkey hget).registered

/-- In every guarded run no step looks into a freed client, host names and the copies of names
included. -/
theorem no_step_touches_freed (policy : Policy) (db : Database) (s : Sys) (freed : List ConnId)
    (h : Reaches Sys.stepFreed (fun p a => p.1.CopiesGuarded a) (.init policy db, []) (s, freed))
    (t : Thread) (input : Input) (c : ConnId) (hc : s.touches t input = some c) : c ∉ freed := by
  have hinv := nameKeysSys_of_reaches h
  have hregistered (hget : ∃ n, s.byFd n = some c) : c ∉ freed := by
    obtain ⟨n, hn⟩ := hget
    exact hinv.lifetime.alive.not_freed_of_byFd hinv.lifetime.owned.shared hn
  cases hpc : (s.pc t).unprotected with
  | false => exact hinv.lifetime.not_freed_of_touches hpc hc
  | true =>
    unfold Sys.touches at hc
    cases hq : s.pc t with
    | idle =>
      rw [hq] at hc
      dsimp only at hc
      split at hc
      · exact hregistered (hinv.registered hc)
      · exact hregistered (hinv.registered hc)
      · cases hc
    | writeName r d cn =>
      rw [hq] at hc
      exact hregistered (hinv.identity.copies t c (by rw [hq]; exact hc))
    | _ =>
      rw [hq] at hpc
      cases hpc

/-- The command line finds the second client under its name when the first one is freed. -/
theorem no_step_touches_freed_secondActs :
    ∃ s, Reaches Sys.stepFreed (fun p a => p.1.CopiesGuarded a) (.init .none .empty, []) (s, [0]) ∧
      s.touches .cli (.command (.subscribe (ascii "valve") (ascii "news"))) = some 1 ∧ 1 ∉ [0] := by
  have hrun : (run (guarded Sys.stepFreed fun p a => p.1.CopiesGuarded a) (.init .none .empty, [])
      (secondActs ++ handshakeActs 5 (ascii "valve"))).map (fun p =>
        (p.1.touches .cli (.command (.subscribe (ascii "valve") (ascii "news"))), p.2)) =
      some (some 1, [0]) := by decide +kernel
  obtain ⟨⟨s, freed⟩, hs, hproj⟩ := Option.map_eq_some_iff.mp hrun
  obtain ⟨htouches, rfl⟩ := Prod.mk.inj hproj
  have hreach := reaches_of_run hs
  exact ⟨s, hreach, htouches, no_step_touches_freed _ _ s _ hreach _ _ 1 htouches⟩

/-- When clients are removed at any time, the worker copies the name into a freed client, and the
command line finds the same client under the name. -/
theorem freed_client_is_found_lateCopyActs :
    ∃ s, Reaches Sys.stepFreed (fun p a => p.1.NumberFresh a ∧ a.NameFits ∧ a.NamePlain)
        (.init .none .empty, []) (s, [0]) ∧
      s.touches (.worker 0) .go = some 0 ∧
      s.touches .cli (.command (.subscribe (ascii "pump") (ascii "news"))) = some 0 := by
  have hrun : (run (guarded Sys.stepFreed fun p a => p.1.NumberFresh a ∧ a.NameFits ∧ a.NamePlain)
      (.init .none .empty, []) lateCopyActs).map (fun p => (p.1.touches (.worker 0) .go,
        p.1.touches .cli (.command (.subscribe (ascii "pump") (ascii "news"))), p.2)) =
      some (some 0, some 0, [0]) := by decide +kernel
  obtain ⟨⟨s, freed⟩, hs, hproj⟩ := Option.map_eq_some_iff.mp hrun
  obtain ⟨hworker, hproj⟩ := Prod.mk.inj hproj
  obtain ⟨hcli, rfl⟩ := Prod.mk.inj hproj
  exact ⟨s, reaches_of_run hs, hworker, hcli⟩

end AdMQ
