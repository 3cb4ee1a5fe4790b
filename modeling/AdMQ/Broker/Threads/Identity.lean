import AdMQ.Core.Journal
import AdMQ.Broker.Threads.Authority
import AdMQ.Broker.Threads.Deliveries
import AdMQ.Broker.Threads.Tokens

/-!
# The name of a client is its own

A worker marks a client as authenticated in one critical section, finds a client
under the descriptor of the task in a second one and writes the name into it in a
third one. As long as the numbers of running tasks are not given to new
connections and no client is removed before the third section, all sections meet
the same client: its name is the common name that was verified on its connection,
and no line is executed before the name is there.

When a number is given away in between, the name goes to the new connection, or a
stale event makes two workers serve the new connection at once. When the client is
removed in between, the name goes into freed memory, which may be the next
client's. A run for each of these shows what is missing without the conditions.
-/

namespace AdMQ

open Core

variable {policy : Policy} {s s' : Sys} {t : Thread} {next : Pc}

/-- The connection that a thread is about to name. -/
def Pc.naming : Pc → Option ConnId
  | .setName r _ | .writeName r _ _ => some r.conn
  | _ => none

/-- The client that a thread is about to write a name into. -/
def Pc.copying : Pc → Option ConnId
  | .writeName _ c _ => some c
  | _ => none

/-- A client that a thread is about to write a name into is registered. -/
def Sys.CopiesRegistered (s : Sys) : Prop :=
  ∀ t c, (s.pc t).copying = some c → ∃ n, s.byFd n = some c

/-- Nobody can find the client any more, and nobody has it. -/
def Sys.Gone (s : Sys) (c : ConnId) : Prop :=
  (∀ n, s.byFd n ≠ some c) ∧ ∀ t, (s.pc t).holds ≠ some c

/-- The name of an authenticated client was verified, or is on its way, or is never used. -/
def Sys.Settled (s : Sys) (c : ConnId) : Prop :=
  Event.verified c (s.client c).hostname ∈ s.log ∨ (∃ t, (s.pc t).naming = some c) ∨ s.Gone c

/-- What a thread knows of the name that it carries. -/
def PointNamed (log : List Event) : Pc → Prop
  | .setName r cn => Event.verified r.conn cn ∈ log ∧ cn.length < 127
  | .writeName r c cn => c = r.conn ∧ Event.verified c cn ∈ log ∧ cn.length < 127
  | _ => True

/-- Every line was dispatched under a name that had been verified on its connection. -/
def DispatchesVerified (log : List Event) : Prop :=
  Grounded (fun older e => ∀ c host, e = .dispatched c host → Event.verified c host ∈ older) log

/-- The invariant of the broker. -/
structure Named (s : Sys) : Prop where
  hostname : ∀ c, (s.client c).hostname = [] ∨ Event.verified c (s.client c).hostname ∈ s.log
  settled : ∀ c, (s.client c).authStatus = .success → s.Settled c
  points : ∀ t, PointNamed s.log (s.pc t)
  dispatches : DispatchesVerified s.log

theorem PointNamed.mono {log log' : List Event} {p : Pc} (h : PointNamed log p)
    (hlog : ∀ e ∈ log, e ∈ log') : PointNamed log' p := by
  cases p with
  | setName r cn => exact ⟨hlog _ h.1, h.2⟩
  | writeName r c cn => exact ⟨h.1, hlog _ h.2.1, h.2.2⟩
  | _ => trivial

/-! ## What a move does to names -/

/-- A client that a thread comes to hold was found under a descriptor. -/
theorem Move.holds {input : Input} {effects : List Effect} (h : Move s t input effects next)
    {c : ConnId} (hc : next.holds = some c) : (s.pc t).holds = some c ∨ ∃ n, s.byFd n = some c := by
  have hkeeps {p : Pc} (hpc : s.pc t = p) (hp : p.holds = some c) :
      (s.pc t).holds = some c ∨ ∃ n, s.byFd n = some c := Or.inl (hpc ▸ hp)
  cases h with
  | lookup hpc hget hfree => exact Or.inr ⟨_, Option.some.inj hc ▸ hget⟩
  | relock hpc hget hfree => exact Or.inr ⟨_, Option.some.inj hc ▸ hget⟩
  | received hpc hauth => exact hkeeps hpc hc
  | answered hpc hbuf heffects => exact hkeeps hpc hc
  | stored hpc hline hcan => exact hkeeps hpc hc
  | lineSubscribe hpc hline hcan hlen => exact hkeeps hpc hc
  | lineUnsubscribe hpc hline hcan => exact hkeeps hpc hc
  | subscribe hpc hfree => exact hkeeps hpc hc
  | unsubscribe hpc hfree => exact hkeeps hpc hc
  | _ => cases hc

/-- A client stays gone when nobody finds it anew. -/
theorem Sys.Gone.goto {c : ConnId} (h : s.Gone c) (hpc : s'.pc = s.pc)
    (hbyFd : ∀ n, s'.byFd n = some c → s.byFd n = some c)
    (hholds : next.holds = some c → (s.pc t).holds = some c ∨ ∃ n, s.byFd n = some c) :
    (s'.goto t next).Gone c := by
  refine ⟨fun n hn => h.1 n (hbyFd n hn), ?_⟩
  refine Sys.forall_pc_goto (P := fun _ q => q.holds ≠ some c) hpc ?_ fun u _ => h.2 u
  intro hnext
  rcases hholds hnext with hold | ⟨n, hn⟩
  · exact h.2 t hold
  · exact h.1 n hn

/-- A client stays settled when, beside that, its name stays and it goes on being named. -/
theorem Sys.Settled.goto {c : ConnId} (h : s.Settled c)
    (hhost : (s'.client c).hostname = (s.client c).hostname) (hlog : ∀ e ∈ s.log, e ∈ s'.log)
    (hpc : s'.pc = s.pc) (hbyFd : ∀ n, s'.byFd n = some c → s.byFd n = some c)
    (hnaming : (s.pc t).naming = some c → next.naming = some c)
    (hholds : next.holds = some c → (s.pc t).holds = some c ∨ ∃ n, s.byFd n = some c) :
    (s'.goto t next).Settled c := by
  rcases h with hverified | ⟨u, hu⟩ | hgone
  · left
    change Event.verified c (s'.client c).hostname ∈ s'.log
    rw [hhost]
    exact hlog _ hverified
  · refine Or.inr (Or.inl ⟨u, ?_⟩)
    by_cases hut : u = t
    · rw [hut, Sys.pc_goto_self]
      exact hnaming (hut ▸ hu)
    · rw [Sys.pc_goto_of_ne _ hut, hpc]
      exact hu
  · exact Or.inr (Or.inr (hgone.goto hpc hbyFd hholds))

/-- The state after a step, put together from its parts. -/
theorem Named.goto (h : Named s) (hpc : s'.pc = s.pc) (hlog : ∀ e ∈ s.log, e ∈ s'.log)
    (hhost : ∀ c, (s'.client c).hostname = [] ∨ Event.verified c (s'.client c).hostname ∈ s'.log)
    (hsettled : ∀ c, (s'.client c).authStatus = .success → (s'.goto t next).Settled c)
    (hpoint : PointNamed s'.log next) (hdisp : DispatchesVerified s'.log) :
    Named (s'.goto t next) := by
  refine ⟨hhost, hsettled, ?_, hdisp⟩
  exact Sys.forall_pc_goto (P := fun _ q => PointNamed _ q) hpc hpoint fun u _ =>
    (h.points u).mono hlog

/-! ## Effects that name nobody -/

/-- Two states with the same names, of which the second finds no other clients. -/
structure KeepsNames (s s' : Sys) : Prop where
  hostname : ∀ c, (s'.client c).hostname = (s.client c).hostname
  authStatus : ∀ c, (s'.client c).authStatus = (s.client c).authStatus
  byFd : ∀ n c, s'.byFd n = some c → s.byFd n = some c
  log : ∀ e ∈ s.log, e ∈ s'.log
  dispatches : DispatchesVerified s.log → DispatchesVerified s'.log
  pc : s'.pc = s.pc

theorem KeepsNames.refl (s : Sys) : KeepsNames s s :=
  ⟨fun _ => rfl, fun _ => rfl, fun _ _ h => h, fun _ h => h, fun h => h, rfl⟩

theorem KeepsNames.trans {s'' : Sys} (h : KeepsNames s s') (h' : KeepsNames s' s'') :
    KeepsNames s s'' where
  hostname c := (h'.hostname c).trans (h.hostname c)
  authStatus c := (h'.authStatus c).trans (h.authStatus c)
  byFd n c hn := h.byFd n c (h'.byFd n c hn)
  log e he := h'.log e (h.log e he)
  dispatches hd := h'.dispatches (h.dispatches hd)
  pc := h'.pc.trans h.pc

/-- The effects that name, authenticate or register nobody. -/
def Effect.keepsNames : Effect → Bool
  | .addClient .. | .authenticate .. | .mapName .. | .copyName .. => false
  | _ => true

/-- A line is dispatched only under a verified name. -/
def Effect.DispatchVerified (s : Sys) (e : Effect) : Prop :=
  ∀ c host, e = .emit (.dispatched c host) → Event.verified c host ∈ s.log

theorem keepsNames_modifyClient (s : Sys) (c : ConnId) {f : Client → Client}
    (hhost : ∀ k, (f k).hostname = k.hostname) (hauth : ∀ k, (f k).authStatus = k.authStatus) :
    KeepsNames s (s.modifyClient c f) :=
  ⟨fun d => s.client_modifyClient_eq c d (g := Client.hostname) hhost,
    fun d => s.client_modifyClient_eq c d (g := Client.authStatus) hauth, fun _ _ h => h,
    fun _ h => h, fun h => h, rfl⟩

/-- A change of the log alone. -/
theorem keepsNames_log (hclient : s'.client = s.client) (hbyFd : s'.byFd = s.byFd)
    (hpc : s'.pc = s.pc) {new : List Event} (hlog : s'.log = new ++ s.log)
    (hnew : ∀ e ∈ new, ∀ c host, e ≠ .dispatched c host) : KeepsNames s s' where
  hostname c := by rw [hclient]
  authStatus c := by rw [hclient]
  byFd n c hn := by rwa [hbyFd] at hn
  log e he := by
    rw [hlog]
    exact List.mem_append_right new he
  dispatches hd := by
    rw [hlog]
    exact Grounded.append hd fun e he older c host hdisp => absurd hdisp (hnew e he c host)
  pc := hpc

theorem keepsNames_emit (s : Sys) {e : Event} (he : (Effect.emit e).DispatchVerified s) :
    KeepsNames s (s.emit e) where
  hostname _ := rfl
  authStatus _ := rfl
  byFd _ _ hn := hn
  log _ he' := List.mem_cons_of_mem e he'
  dispatches hd := ⟨fun c host hdisp => he c host (congrArg Effect.emit hdisp), hd⟩
  pc := rfl

theorem keepsNames_apply (s : Sys) {e : Effect} (h : e.keepsNames = true)
    (hdisp : e.DispatchVerified s) : KeepsNames s (s.apply e) := by
  cases e with
  | addClient c fd memory => cases h
  | authenticate c cn => cases h
  | mapName fd cn => cases h
  | copyName c cn => cases h
  | startSsl c => exact keepsNames_modifyClient s c (fun _ => rfl) fun _ => rfl
  | receive c chunk => exact keepsNames_modifyClient s c (fun _ => rfl) fun _ => rfl
  | consume c buffer => exact keepsNames_modifyClient s c (fun _ => rfl) fun _ => rfl
  | tearDown c =>
    have hkeeps := keepsNames_modifyClient s c (f := Client.tornDown) (fun _ => rfl) fun _ => rfl
    exact ⟨hkeeps.hostname, hkeeps.authStatus, hkeeps.byFd, hkeeps.log, hkeeps.dispatches, rfl⟩
  | unregister fd =>
    refine ⟨?_, ?_, fun n c hn => byFd_of_byFd_unregister hn, fun _ h => h, fun h => h, rfl⟩
    · intro c
      rw [client_unregister]
    · intro c
      rw [client_unregister]
  | subscribe origin c fd topic =>
    refine keepsNames_log rfl rfl rfl (log_apply s _) ?_
    intro e he d host
    rcases List.mem_append.mp he with he | he
    · rw [Sys.eq_entered_of_mem_entering he]
      exact nofun
    · rw [List.mem_singleton.mp he]
      exact nofun
  | unsubscribe c fd topic =>
    exact keepsNames_log rfl rfl rfl (log_apply s _) (by simp [Effect.events])
  | unsubscribeAll fd =>
    exact keepsNames_log rfl rfl rfl (log_apply s _) (by simp [Effect.events])
  | store origin hostname key value =>
    exact keepsNames_log rfl rfl rfl (log_apply s _) (by simp [Effect.events])
  | emit e => exact keepsNames_emit s hdisp
  | _ => exact ⟨fun _ => rfl, fun _ => rfl, fun _ _ h => h, fun _ h => h, fun h => h, rfl⟩

theorem keepsNames_applyAll (s : Sys) {effects : List Effect}
    (h : ∀ e ∈ effects, e.keepsNames = true ∧ e.DispatchVerified s) :
    KeepsNames s (s.applyAll effects) := by
  refine Sys.applyAll_induction (P := KeepsNames s) ?_ (.refl s)
  intro s' e he hs
  refine hs.trans (keepsNames_apply s' (h e he).1 ?_)
  intro c host hdisp
  exact hs.log _ ((h e he).2 c host hdisp)

theorem keepsNames_mapName (s : Sys) (fd : Int) {cn : CStr} (h : isFdKey cn = false) :
    KeepsNames s (s.apply (.mapName fd cn)) := by
  refine ⟨?_, ?_, ?_, fun _ h => h, fun h => h, rfl⟩
  · intro c
    rw [client_mapName]
  · intro c
    rw [client_mapName]
  · intro n c hn
    rwa [byFd_mapName s fd h] at hn

/-- A step that names nobody. -/
theorem Named.quiet (h : Named s) (hs : KeepsNames s s')
    (hnaming : ∀ c, (s.pc t).naming = some c → next.naming = some c)
    (hholds : ∀ c, next.holds = some c → (s.pc t).holds = some c ∨ ∃ n, s.byFd n = some c)
    (hpoint : PointNamed s.log next) : Named (s'.goto t next) := by
  refine h.goto hs.pc hs.log ?_ ?_ (hpoint.mono hs.log) (hs.dispatches h.dispatches)
  · intro c
    rw [hs.hostname]
    exact (h.hostname c).imp_right (hs.log _)
  · intro c hc
    rw [hs.authStatus] at hc
    exact (h.settled c hc).goto (hs.hostname c) hs.log hs.pc (fun n => hs.byFd n c) (hnaming c)
      (hholds c)

/-! ## Effects on names -/

/-- A client is added for the accept loop: it has no name and is not authenticated. -/
theorem Named.addClient (h : Named s) {c : ConnId} {fd : Int} {memory : ClientMemory}
    (hpc : s.pc t = .accepted c fd) :
    Named ((s.apply (.addClient c fd memory)).goto t (.added fd)) := by
  have hself : (s.apply (.addClient c fd memory)).client c = .new fd s.now memory.toJunk :=
    Function.update_self ..
  refine h.goto rfl (fun _ he => he) ?_ ?_ trivial h.dispatches
  · intro d
    by_cases hdc : d = c
    · rw [hdc, hself]
      exact Or.inl rfl
    · rw [client_addClient_of_ne s hdc]
      exact h.hostname d
  · intro d hd
    by_cases hdc : d = c
    · rw [hdc, hself] at hd
      cases hd
    · rw [client_addClient_of_ne s hdc] at hd
      refine (h.settled d hd).goto (by rw [client_addClient_of_ne s hdc]) (fun _ he => he) rfl
        ?_ ?_ nofun
      · intro n hn
        rw [byFd_addClient] at hn
        split at hn
        · exact absurd (Option.some.inj hn).symm hdc
        · exact hn
      · intro hn
        rw [hpc] at hn
        cases hn

/-- The certificate of the locked client is accepted. -/
theorem Named.verified (h : Named s) {r : Ref} {cn : CStr} (hpc : s.pc t = .locked r r.conn)
    (hlen : cn.length < 127) :
    Named ((s.applyAll [.startSsl r.conn, .authenticate r.conn cn]).goto t (.setName r cn)) := by
  have hclient (d : ConnId) :
      (s.applyAll [.startSsl r.conn, .authenticate r.conn cn]).client d =
        ((s.modifyClient r.conn fun k => { k with ssl := true }).modifyClient r.conn fun k =>
          { k with authStatus := .success, state := .idle }).client d := rfl
  have hhost (d : ConnId) :
      ((s.applyAll [.startSsl r.conn, .authenticate r.conn cn]).client d).hostname =
        (s.client d).hostname :=
    (Sys.client_modifyClient_eq _ _ _ (g := Client.hostname)
      (f := fun k => { k with authStatus := .success, state := .idle }) fun _ => rfl).trans
      (s.client_modifyClient_eq _ _ (g := Client.hostname) (f := fun k => { k with ssl := true })
        fun _ => rfl)
  have hlog : ∀ e ∈ s.log, e ∈ (s.applyAll [.startSsl r.conn, .authenticate r.conn cn]).log :=
    fun e he => List.mem_cons_of_mem _ he
  refine h.goto rfl hlog ?_ ?_ ⟨List.mem_cons_self, hlen⟩ ⟨nofun, h.dispatches⟩
  · intro d
    rw [hhost]
    exact (h.hostname d).imp_right (hlog _)
  · intro d hd
    by_cases hdc : d = r.conn
    · -- The name itself is still on its way.
      exact Or.inr (Or.inl ⟨t, by rw [Sys.pc_goto_self, hdc]; rfl⟩)
    · rw [hclient, Sys.client_modifyClient_of_ne _ hdc, Sys.client_modifyClient_of_ne _ hdc] at hd
      refine (h.settled d hd).goto (hhost d) hlog rfl (fun _ hn => hn) ?_ nofun
      intro hn
      rw [hpc] at hn
      cases hn

/-- A client that is about to be named is in its own memory. -/
theorem Sys.CopiesRegistered.heir_eq (h : s.CopiesRegistered) (ho : Owned s) {c : ConnId}
    (hc : (s.pc t).copying = some c) : s.heir c = c := by
  obtain ⟨n, hn⟩ := h t c hc
  obtain ⟨hfd, hpos⟩ := ho.entry n c hn
  refine ho.placed c ?_
  rw [hfd]
  exact hpos.le

/-- The name goes into the client itself when its memory is still its own. -/
theorem apply_copyName {c : ConnId} (cn : CStr) (hheir : s.heir c = c) :
    s.apply (.copyName c cn) = s.modifyClient c (·.copyHostname cn) := by
  change s.modifyClient (s.heir c) _ = _
  rw [hheir]

/-- The verified name is written into the client of the task. -/
theorem Named.copyName (h : Named s) {r : Ref} {c : ConnId} {cn : CStr}
    (hpc : s.pc t = .writeName r c cn) (hheir : s.heir c = c) :
    Named ((s.apply (.copyName c cn)).goto t (.rearm r)) := by
  obtain ⟨rfl, hverified, hlen⟩ : PointNamed s.log (.writeName r c cn) := hpc ▸ h.points t
  have happly := apply_copyName cn hheir
  have hself : ((s.apply (.copyName r.conn cn)).client r.conn).hostname = cn := by
    rw [happly, Sys.client_modifyClient_self, Client.hostname_copyHostname _ hlen]
  have hother {d : ConnId} (hd : d ≠ r.conn) :
      (s.apply (.copyName r.conn cn)).client d = s.client d := by
    rw [happly, s.client_modifyClient_of_ne hd]
  refine h.goto rfl (fun _ he => he) ?_ ?_ trivial h.dispatches
  · intro d
    by_cases hdc : d = r.conn
    · rw [hdc, hself]
      exact Or.inr hverified
    · rw [hother hdc]
      exact h.hostname d
  · intro d hd
    by_cases hdc : d = r.conn
    · left
      change Event.verified d ((s.apply (.copyName r.conn cn)).client d).hostname ∈ s.log
      rw [hdc, hself]
      exact hverified
    · rw [hother hdc] at hd
      refine (h.settled d hd).goto (by rw [hother hdc]) (fun _ he => he) rfl (fun _ hn => hn)
        ?_ nofun
      intro hn
      rw [hpc] at hn
      exact absurd (Option.some.inj hn).symm hdc

/-! ## Steps -/

theorem Pc.ref_of_naming {p : Pc} {c : ConnId} (h : p.naming = some c) :
    p.holds = none ∧ ∃ r, p.ref = some r ∧ r.conn = c := by
  cases p with
  | setName r cn => exact ⟨rfl, r, rfl, Option.some.inj h⟩
  | writeName r d cn => exact ⟨rfl, r, rfl, Option.some.inj h⟩
  | _ => cases h

/-- While a connection is being named, nobody holds its client. -/
theorem Tokens.holds_ne_of_naming (h : Tokens s) {u : Thread} {c : ConnId}
    (hc : (s.pc u).naming = some c) (t : Thread) : (s.pc t).holds ≠ some c := by
  intro ht
  obtain ⟨hfree, r, hr, hconn⟩ := Pc.ref_of_naming hc
  obtain ⟨r', hr', hconn'⟩ := h.held t c ht
  rw [h.single t u r' r hr' hr (hconn'.trans hconn.symm), hfree] at ht
  cases ht

/-- A connection whose descriptor leads nowhere any more is gone. -/
theorem Tokens.gone (h : Tokens s) (ho : Owned s) {r : Ref} {cn : CStr}
    (hpc : s.pc t = .setName r cn) (hget : s.byFd r.fd = none) : s.Gone r.conn := by
  have href : (s.pc t).ref = some r := by rw [hpc]; rfl
  refine ⟨?_, h.holds_ne_of_naming (u := t) (by rw [hpc]; rfl)⟩
  intro n hn
  have howner := ho.fdTable_of_byFd hn
  rw [(h.current r (Or.inr ⟨t, href⟩) _ _ howner).mpr rfl, hget] at hn
  cases hn

/-- The client whose line is executed has its verified name. -/
theorem Named.verified_of_line (h : Named s) (ht : Tokens s) (ha : AuthorisedSys policy s)
    {c : ConnId} (hholds : (s.pc t).holds = some c) (hbuf : 0 < (s.client c).buffer.len) :
    Event.verified c (s.client c).hostname ∈ s.log := by
  rcases h.settled c (ha.buffers c hbuf) with hverified | ⟨u, hu⟩ | hgone
  · exact hverified
  · exact absurd hholds (ht.holds_ne_of_naming hu t)
  · exact absurd hholds (hgone.2 t)

/-- The accepted common names fit into the hostname field with their end. -/
def Act.NameFits (a : Act) : Prop :=
  match a.input with
  | .goodCertificate cn => cn.length < 127
  | _ => True

/-- No client is taken out of the registry while its name is about to be written. -/
def Sys.CopiesKept (s : Sys) (a : Act) : Prop :=
  ∀ u, ∀ c ∈ (s.pc u).copying, s.removing a.thread ≠ some c

/-- The condition on a step: `accept` returns numbers that no event and no task carries, accepted
common names fit into the field and are no descriptor keys, and no client is taken out of the
registry while its name is about to be written. -/
def Sys.NamesGuarded (s : Sys) (a : Act) : Prop :=
  s.NumberFresh a ∧ a.NameFits ∧ a.NamePlain ∧ s.CopiesKept a

/-- Only `client_set_hostname` comes to write a name, and it found the client. -/
theorem Move.copying {input : Input} {effects : List Effect} (h : Move s t input effects next)
    {c : ConnId} (hc : next.copying = some c) : ∃ n, s.byFd n = some c := by
  cases h with
  | mapName hpc hread hget => exact ⟨_, Option.some.inj hc ▸ hget⟩
  | _ => cases hc

theorem Sys.CopiesRegistered.step (h : s.CopiesRegistered) (ho : OwnedSys s) {a : Act}
    (hkept : s.CopiesKept a) (hs : s.step a = some s') : s'.CopiesRegistered := by
  obtain ⟨effects, next, hmove, rfl⟩ := Sys.exists_move_of_step hs
  have hstays {n : Int} {c : ConnId} (hn : s.byFd n = some c)
      (hfree : s.removing a.thread ≠ some c) : (s.applyAll effects).byFd n = some c :=
    (ho.byFd_of_move hmove hn).resolve_right fun hremoved => hfree hremoved.1
  refine Sys.forall_pc_goto (P := fun _ p => ∀ c, p.copying = some c →
    ∃ n, (s.applyAll effects).byFd n = some c) (s.pc_applyAll _) ?_ ?_
  · intro c hc
    obtain ⟨n, hn⟩ := hmove.copying hc
    rcases ho.byFd_of_move hmove hn with hstays | ⟨-, rest, rfl⟩
    · exact ⟨n, hstays⟩
    · cases hc
  · intro u _ c hc
    obtain ⟨n, hn⟩ := h u c hc
    exact ⟨n, hstays hn (hkept u c hc)⟩

/-- Every guarded step keeps the names in order. -/
theorem Named.step (h : Named s) (ho : OwnedSys s) (ha : AuthorisedSys policy s) (ht : Tokens s)
    (hcopies : s.CopiesRegistered) {a : Act} (hfits : a.NameFits) (hs : s.step a = some s') :
    Named s' := by
  obtain ⟨effects, next, hmove, rfl⟩ := Sys.exists_move_of_step hs
  have hpoint := h.points a.thread
  -- Moves at other points than those of `client_set_hostname` end no naming.
  have hquiet {s'' : Sys} (hkeeps : KeepsNames s s'') (hother : (s.pc a.thread).naming = none)
      (hnext : PointNamed s.log next) : Named (s''.goto a.thread next) := by
    refine h.quiet hkeeps ?_ (fun c hc => hmove.holds hc) hnext
    intro c hc
    rw [hother] at hc
    cases hc
  -- A line of the client in hand is dispatched under its verified name.
  have hline {r : Ref} {c : ConnId} (hpc : s.pc a.thread = .lines r c)
      (hbuf : 0 < (s.client c).buffer.len) (d : ConnId) (host : CStr)
      (he : Effect.emit (.dispatched c (s.client c).hostname) = .emit (.dispatched d host)) :
      Event.verified d host ∈ s.log := by
    obtain ⟨rfl, rfl⟩ := Event.dispatched.inj (Effect.emit.inj he)
    exact h.verified_of_line ht ha (t := a.thread) (by rw [hpc]; rfl) hbuf
  cases hmove with
  | add hin hpc hread hmemory => exact h.addClient hpc
  | @verified r c cn hin hpc hauth =>
    rw [Act.NameFits, hin] at hfits
    obtain ⟨q, hq, rfl⟩ := ht.held a.thread c (by rw [hpc]; rfl)
    rw [hpc] at hq
    obtain rfl := Option.some.inj hq
    exact h.verified hpc hfits
  | copyName hpc hfree => exact h.copyName hpc (hcopies.heir_eq ho.shared (by rw [hpc]; rfl))
  | mapName hpc hread hget =>
    rw [hpc] at hpoint
    have hplain : PointOwned s a.thread (.setName _ _) := hpc ▸ ho.points a.thread
    have hconn := ht.conn_of_byFd ho.shared (Or.inr ⟨a.thread, by rw [hpc]; rfl⟩) hget
    refine h.quiet (keepsNames_mapName s _ hplain) ?_ nofun ⟨hconn, hconn ▸ hpoint.1, hpoint.2⟩
    intro c hc
    rw [hpc] at hc
    exact hc
  | @unnamed r cn hpc hget =>
    refine h.goto rfl (fun _ he => he) h.hostname ?_ trivial h.dispatches
    intro c hc
    by_cases hconn : c = r.conn
    · have hgone : s.Gone c := hconn ▸ ht.gone ho.shared hpc hget
      exact Or.inr (Or.inr (hgone.goto rfl (fun _ hn => hn) nofun))
    · refine (h.settled c hc).goto rfl (fun _ he => he) rfl (fun _ hn => hn) ?_ nofun
      intro hn
      rw [hpc] at hn
      exact absurd (Option.some.inj hn).symm hconn
  | answered hpc hbuf heffects =>
    refine hquiet (keepsNames_applyAll s ?_) (by rw [hpc]; rfl) trivial
    intro e he
    rcases List.mem_cons.mp he with rfl | he
    · exact ⟨rfl, nofun⟩
    · cases heffects e he with
      | dispatched => exact ⟨rfl, hline hpc hbuf⟩
      | logged sender topic message => exact ⟨rfl, nofun⟩
      | replied text => exact ⟨rfl, nofun⟩
  | stored hpc hl hcan =>
    refine hquiet (keepsNames_applyAll s ?_) (by rw [hpc]; rfl) trivial
    simpa [Effect.keepsNames, Effect.DispatchVerified] using hline hpc hl.len_pos
  | lineSubscribe hpc hl hcan hlen =>
    refine hquiet (keepsNames_applyAll s ?_) (by rw [hpc]; rfl) trivial
    simpa [Effect.keepsNames, Effect.DispatchVerified] using hline hpc hl.len_pos
  | lineUnsubscribe hpc hl hcan =>
    refine hquiet (keepsNames_applyAll s ?_) (by rw [hpc]; rfl) trivial
    simpa [Effect.keepsNames, Effect.DispatchVerified] using hline hpc hl.len_pos
  | linePublish hpc hl hcan =>
    refine hquiet (keepsNames_applyAll s ?_) (by rw [hpc]; rfl) trivial
    simpa [Effect.keepsNames, Effect.DispatchVerified] using hline hpc hl.len_pos
  | _ =>
    refine hquiet (keepsNames_applyAll s ?_) (by rw [‹s.pc a.thread = _›]; rfl) trivial
    simp [Effect.keepsNames, Effect.DispatchVerified]

/-- What guarded runs keep. -/
structure IdentitySys (policy : Policy) (s : Sys) : Prop where
  owned : OwnedSys s
  authorised : AuthorisedSys policy s
  tokens : Tokens s
  copies : s.CopiesRegistered
  named : Named s

theorem IdentitySys.step (h : IdentitySys policy s) {a : Act} (hok : s.NamesGuarded a)
    (hs : s.step a = some s') : IdentitySys policy s' :=
  ⟨h.owned.step hok.2.2.1 hs, h.authorised.step hs, h.tokens.step h.owned hok.1 hs,
    h.copies.step h.owned hok.2.2.2 hs,
    h.named.step h.owned h.authorised h.tokens h.copies hok.2.1 hs⟩

theorem identitySys_of_reaches {db : Database}
    (h : Reaches Sys.step Sys.NamesGuarded (.init policy db) s) : IdentitySys policy s := by
  refine h.invariant ⟨ownedSys_init policy db, authorisedSys_init policy db, tokens_init policy db,
    nofun, fun _ => Or.inl rfl, nofun, fun _ => trivial, trivial⟩ fun _ _ _ hinv hok hs =>
    hinv.step hok hs

/-- In every guarded run the name of a client is empty or the one that was verified on its
connection, and every line that goes to an access check or to the device state goes there under
the name that had been verified on its connection by then. -/
theorem hostnames_are_verified (policy : Policy) (db : Database) (s : Sys)
    (h : Reaches Sys.step Sys.NamesGuarded (.init policy db) s) :
    (∀ c, (s.client c).hostname = [] ∨ Event.verified c (s.client c).hostname ∈ s.log) ∧
    ∀ newer older c host, s.log = newer ++ .dispatched c host :: older →
      Event.verified c host ∈ older := by
  have hinv := (identitySys_of_reaches h).named
  refine ⟨hinv.hostname, ?_⟩
  intro newer older c host hlog
  have hdisp := hinv.dispatches
  rw [hlog] at hdisp
  exact hdisp.at c host rfl

/-! ## Runs -/

instance (s : Sys) (fd : Int) : Decidable (s.Unreferenced fd) :=
  decidable_of_iff ((∀ r ∈ s.queued, r.fd ≠ fd) ∧ ∀ t, (s.pc t).ref.map Ref.fd ≠ some fd)
    (and_congr_right fun _ => forall_congr' fun t => by simp)

/-- The number that `accept` returns. -/
def Input.acceptedFd? : Input → Option Int
  | .acceptVault fd | .acceptLobby fd => some fd
  | _ => none

/-- The common name of an accepted certificate. -/
def Input.commonName? : Input → Option CStr
  | .goodCertificate cn => some cn
  | _ => none

theorem Sys.numberFresh_iff (s : Sys) (a : Act) :
    (∀ fd ∈ a.input.acceptedFd?, s.Unreferenced fd) ↔ s.NumberFresh a := by
  unfold Sys.NumberFresh
  cases a.input <;> simp [Input.acceptedFd?]

theorem Act.nameFits_iff (a : Act) :
    (∀ cn ∈ a.input.commonName?, cn.length < 127) ↔ a.NameFits := by
  unfold Act.NameFits
  cases a.input <;> simp [Input.commonName?]

instance (s : Sys) (a : Act) : Decidable (s.NumberFresh a) :=
  decidable_of_iff _ (s.numberFresh_iff a)

instance (a : Act) : Decidable a.NameFits := decidable_of_iff _ a.nameFits_iff

instance (s : Sys) (a : Act) : Decidable (s.CopiesKept a) :=
  inferInstanceAs (Decidable (∀ u, ∀ c ∈ (s.pc u).copying, _))

instance (s : Sys) (a : Act) : Decidable (s.NamesGuarded a) :=
  inferInstanceAs (Decidable (_ ∧ _ ∧ _ ∧ _))

/-- A client is named and asks for a value. -/
def askingActs : List Act :=
  acceptActs 5 ++ handshakeActs 5 (ascii "pump") ++ eventActs 5 ++
    [⟨.worker 0, .data (ascii "GET mode\n")⟩, ⟨.worker 0, .go⟩]

/-- The line of a named client is dispatched under its name. -/
theorem hostnames_are_verified_askingActs :
    ∃ s newer older, Reaches Sys.step Sys.NamesGuarded (.init .none .empty) s ∧
      s.log = newer ++ .dispatched 0 (ascii "pump") :: older ∧
      Event.verified 0 (ascii "pump") ∈ older := by
  have hrun :
      (run (guarded Sys.step Sys.NamesGuarded) (.init .none .empty) askingActs).map Sys.log =
      some [.reply 0 (ascii "ERROR: Key 'mode' not found.\n"), .dispatched 0 (ascii "pump"),
        .verified 0 (ascii "pump")] := by decide +kernel
  obtain ⟨s, hs, hlog⟩ := Option.map_eq_some_iff.mp hrun
  have hreach := reaches_of_run hs
  exact ⟨s, [_], _, hreach, hlog, (hostnames_are_verified _ _ s hreach).2 [_] _ _ _ hlog⟩

/-- The certificate of a connection is accepted, and before its worker gets to write the name,
the sweeper removes the idle client and a new connection gets the descriptor. The new connection
has a certificate of its own and is named by another worker; then the first worker goes on, and
the new connection asks for a value. -/
def crossedActs : List Act :=
  acceptActs 5 ++ eventActs 5 ++ [⟨.worker 0, .goodCertificate (ascii "pump")⟩] ++
    List.replicate 61 ⟨.main, .tick⟩ ++ Thread.going .sweeper 7 ++ acceptActs 5 ++
    reportActs 5 ++ Thread.going (.worker 1) 2 ++
    ⟨.worker 1, .goodCertificate (ascii "valve")⟩ :: Thread.going (.worker 1) 3 ++
    Thread.going (.worker 0) 3 ++ reportActs 5 ++ Thread.going (.worker 1) 2 ++
    [⟨.worker 1, .data (ascii "GET mode\n")⟩, ⟨.worker 1, .go⟩]

/-- Without the condition a connection bears the name of the one before it, and its line is
executed under that name. -/
theorem name_crosses_connections_crossedActs :
    ∃ s, Reaches Sys.step (fun _ a => a.NameFits ∧ a.NamePlain) (.init .none .empty) s ∧
      (s.client 1).hostname = ascii "pump" ∧
      (∃ newer older, s.log = newer ++ .dispatched 1 (ascii "pump") :: older) ∧
      (∀ cn, Event.verified 1 cn ∈ s.log → cn = ascii "valve") ∧
      Event.verified 1 (ascii "pump") ∉ s.log := by
  have hrun : (run (guarded Sys.step fun _ a => a.NameFits ∧ a.NamePlain) (.init .none .empty)
      crossedActs).map (fun s => ((s.client 1).hostname, s.log)) =
      some (ascii "pump",
        [.reply 1 (ascii "ERROR: Key 'mode' not found.\n"), .dispatched 1 (ascii "pump"),
          .verified 1 (ascii "valve"), .unsubscribedAll (some 0) 5,
          .verified 0 (ascii "pump")]) := by decide +kernel
  obtain ⟨s, hs, hproj⟩ := Option.map_eq_some_iff.mp hrun
  obtain ⟨hname, hlog⟩ := Prod.mk.inj hproj
  have hvalve (cn : CStr) (hcn : Event.verified 1 cn ∈ s.log) : cn = ascii "valve" := by
    rw [hlog] at hcn
    simpa using hcn
  refine ⟨s, reaches_of_run hs, hname, ⟨[_], _, hlog⟩, hvalve, ?_⟩
  intro hpump
  exact absurd (hvalve _ hpump) (by decide)

/-- The numbers that queued tasks and workers carry, without those in `events`. -/
def Sys.TasksSpared (s : Sys) (a : Act) : Prop :=
  ∀ fd ∈ a.input.acceptedFd?, (∀ r ∈ s.tasks, r.fd ≠ fd) ∧ ∀ t, (s.pc t).ref.map Ref.fd ≠ some fd

instance (s : Sys) (a : Act) : Decidable (s.TasksSpared a) :=
  inferInstanceAs (Decidable (∀ fd ∈ a.input.acceptedFd?, _))

/-- An event of an idle connection is reported, and before it is queued the sweeper removes the
client and a new connection gets the descriptor. The event becomes a task of the new connection,
which gets a second one of its own: while one worker has yet to name the client, the other one
finds it authenticated and executes its line. -/
def staleEventActs : List Act :=
  acceptActs 5 ++ List.replicate 61 ⟨.main, .tick⟩ ++ [⟨.main, .events [5]⟩] ++
    Thread.going .sweeper 6 ++ acceptActs 5 ++ ⟨.main, .go⟩ :: reportActs 5 ++
    Thread.going (.worker 0) 2 ++ ⟨.worker 0, .goodCertificate (ascii "valve")⟩ ::
    Thread.going (.worker 1) 2 ++ [⟨.worker 1, .data (ascii "GET mode\n")⟩, ⟨.worker 1, .go⟩]

/-- When only the numbers of tasks are spared and not those in `events`, a line is executed before
its client has a name. -/
theorem line_precedes_name_staleEventActs :
    ∃ s, Reaches Sys.step (fun s a => s.TasksSpared a ∧ a.NameFits ∧ a.NamePlain ∧ s.CopiesKept a)
        (.init .none .empty) s ∧
      ∃ newer older, s.log = newer ++ .dispatched 1 [] :: older := by
  have hrun : (run (guarded Sys.step fun s a =>
      s.TasksSpared a ∧ a.NameFits ∧ a.NamePlain ∧ s.CopiesKept a) (.init .none .empty)
      staleEventActs).map Sys.log =
      some [.reply 1 (ascii "ERROR: Key 'mode' not found.\n"), .dispatched 1 [],
        .verified 1 (ascii "valve"), .unsubscribedAll (some 0) 5] := by decide +kernel
  obtain ⟨s, hs, hlog⟩ := Option.map_eq_some_iff.mp hrun
  exact ⟨s, reaches_of_run hs, [_], _, hlog⟩

/-- The sweeper removes a client between the two sections of `client_set_hostname`. -/
def lateCopyActs : List Act :=
  acceptActs 5 ++ eventActs 5 ++
    [⟨.worker 0, .goodCertificate (ascii "pump")⟩, ⟨.worker 0, .go⟩] ++
    List.replicate 61 ⟨.main, .tick⟩ ++ Thread.going .sweeper 6

/-- The next connection gets another descriptor, and its client the memory of the freed one. -/
def reusedMemoryActs : List Act :=
  lateCopyActs ++ [⟨.main, .acceptVault 7⟩, ⟨.main, .memory ⟨.zero, some 0⟩⟩, ⟨.main, .go⟩,
    ⟨.worker 0, .go⟩]

/-- When clients are removed at any time, a connection bears a name that was verified on another
one, although no number is used twice. -/
theorem name_enters_reused_memory_reusedMemoryActs :
    ∃ s, Reaches Sys.step (fun s a => s.NumberFresh a ∧ a.NameFits ∧ a.NamePlain)
        (.init .none .empty) s ∧
      s.byFd 7 = some 1 ∧ (s.client 1).hostname = ascii "pump" ∧
      Event.verified 1 (ascii "pump") ∉ s.log := by
  have hrun : (run (guarded Sys.step fun s a => s.NumberFresh a ∧ a.NameFits ∧ a.NamePlain)
      (.init .none .empty) reusedMemoryActs).map
      (fun s => (s.byFd 7, (s.client 1).hostname, s.log)) =
      some (some 1, ascii "pump", [.unsubscribedAll (some 0) 5, .verified 0 (ascii "pump")]) := by
    decide +kernel
  obtain ⟨s, hs, hproj⟩ := Option.map_eq_some_iff.mp hrun
  obtain ⟨hget, hproj⟩ := Prod.mk.inj hproj
  obtain ⟨hname, hlog⟩ := Prod.mk.inj hproj
  refine ⟨s, reaches_of_run hs, hget, hname, ?_⟩
  rw [hlog]
  decide

end AdMQ
