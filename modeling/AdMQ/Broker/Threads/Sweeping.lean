import AdMQ.Broker.Client.Sweep
import AdMQ.Broker.Threads.Deliveries

/-!
# What a sweep removes

`client_manager_sweep_inactive` reads the time, collects the descriptors of the
clients that have been idle for too long, and then removes whatever is registered
under these numbers. Here the timeout is a parameter, and the local variable `now`
of the sweep stands beside the state of the broker, so that time may pass between
the call of `time` and the scan.

The list of the sweep holds numbers, and no lock is held between the scan and a
removal. If meanwhile no data is read from a client on the list and the accept loop
registers no number on it, then the sweep removes inactive clients only.
-/

namespace AdMQ

open Core

/-! ## The sweep with its timeout -/

namespace Sys

variable (s : Sys)

/-- The next client of a scan; idle for more than the timeout is idle for too long. -/
def planScanFor (timeout : Int) (now : Nat) (found : List Int) : List ConnId → Plan
  | [] => some ([], .sweep found)
  | c :: todo =>
    if s.Locked c then none
    else if (s.client c).state = .idle ∧ timeout < (s.client c).inactivity now then
      some ([], .scan todo now (found ++ [(s.client c).fd]))
    else some ([], .scan todo now found)

/-- The next step of the sweeper, with the time it has read. -/
def planSweeper (timeout : Int) (now : Nat) (input : Input) : Plan :=
  match s.pc .sweeper with
  | .idle =>
    match input with
    | .go => some ([], .scan s.sweptClients now [])
    | _ => none
  | .scan todo now found => s.planScanFor timeout now found todo
  | _ => s.plan .sweeper input

/-- The next step of a thread. -/
def planSweep (timeout : Int) (now : Nat) (t : Thread) (input : Input) : Plan :=
  if t = .sweeper then s.planSweeper timeout now input else s.plan t input

theorem planScanFor_sixty (now : Nat) (found : List Int) (todo : List ConnId) :
    s.planScanFor 60 now found todo = s.planScan now found todo := by
  cases todo with
  | nil => rfl
  | cons c todo =>
    have hidle : 60 < (s.client c).inactivity now ↔ (s.client c).lastActivity + 60 < now := by
      rw [Client.inactivity]
      omega
    simp only [planScanFor, planScan, hidle]

/-- The sweeps of the broker: the timeout is 60, and the scan starts as soon as the time is read. -/
theorem planSweep_sixty (t : Thread) (input : Input) :
    s.planSweep 60 s.now t input = s.plan t input := by
  rw [planSweep]
  split
  next ht =>
    subst ht
    cases hpc : s.pc .sweeper with
    | idle =>
      unfold planSweeper plan
      rw [hpc]
      cases input <;> rfl
    | scan todo now found =>
      simp only [planSweeper, plan, hpc]
      exact s.planScanFor_sixty now found todo
    | _ => simp only [planSweeper, hpc]
  · rfl

end Sys

/-- The broker with the variable `now` of its sweep. -/
structure Sweep where
  sys : Sys
  now : Nat

/-- A step of the broker, or the call of `time` in the sweep. -/
inductive SweepAct where
  | readTime
  | step (a : Act)

/-- One step. -/
def Sweep.step (timeout : Int) (x : Sweep) : SweepAct → Option Sweep
  | .readTime => if x.sys.pc .sweeper = .idle then some { x with now := x.sys.now } else none
  | .step a => (x.sys.planSweep timeout x.now a.thread a.input).map fun p =>
      { x with sys := (x.sys.applyAll p.1).goto a.thread p.2 }

/-- A step of the broker is a step here, once the time is read. -/
theorem Sweep.step_of_step (s : Sys) (a : Act) :
    Sweep.step 60 ⟨s, s.now⟩ (.step a) = (s.step a).map (⟨·, s.now⟩) := by
  rw [Sweep.step, s.planSweep_sixty, Sys.step, Option.map_map]
  rfl

/-! ## The list of a sweep -/

/-- The numbers that are still to be removed. -/
def Pc.pending : Pc → List Int
  | .scan _ _ found => found
  | .sweep fds => fds
  | .remove fd rest => fd :: rest
  | .destroy _ rest => rest
  | _ => []

/-- The client that is torn down next. -/
def Pc.tearsDown : Pc → Option ConnId
  | .destroy c _ => some c
  | _ => none

/-- A client that the sweep removes, as things are. -/
def Sys.Listed (s : Sys) (c : ConnId) : Prop :=
  (∃ fd ∈ (s.pc .sweeper).pending, s.byFd fd = some c) ∨ (s.pc .sweeper).tearsDown = some c

/-- The client that the next step of the sweeper removes: it is taken out of the registry or torn
down. -/
def Sys.removes (s : Sys) : Option ConnId :=
  match s.pc .sweeper with
  | .remove fd _ => s.byFd fd
  | .destroy c _ => some c
  | _ => none

theorem Sys.listed_of_removes {s : Sys} {c : ConnId} (h : s.removes = some c) : s.Listed c := by
  rw [Sys.removes] at h
  split at h
  next fd rest hpc =>
    refine Or.inl ⟨fd, ?_, h⟩
    rw [hpc]
    exact List.mem_cons_self
  next hpc =>
    refine Or.inr ?_
    rw [hpc]
    exact h
  · cases h

/-- What an effect leaves alone: no data is read from a client on the list, and no number on the
list is registered. -/
def Effect.Spares (s : Sys) : Effect → Prop
  | .receive c _ => ¬ s.Listed c
  | .addClient _ fd _ => fd ∉ (s.pc .sweeper).pending
  | _ => True

/-- The effects of a step; none if it is not enabled. -/
def Sweep.effects (timeout : Int) (x : Sweep) (a : Act) : List Effect :=
  (x.sys.planSweep timeout x.now a.thread a.input).elim [] Prod.fst

/-- The condition on a step: it spares the list, and accepted common names are no descriptor
keys. -/
def Sweep.Undisturbed (timeout : Int) (x : Sweep) : SweepAct → Prop
  | .readTime => True
  | .step a => (∀ e ∈ x.effects timeout a, e.Spares x.sys) ∧ a.NamePlain

/-! ## Steps of the other threads -/

/-- A step puts no client on the list, and those on it are no less inactive. -/
def Spared (s s' : Sys) : Prop :=
  ∀ c, s'.Listed c → s.Listed c ∧ (s'.client c).lastActivity = (s.client c).lastActivity

/-- The effects that can register a number. -/
def Effect.Registers (n : Int) : Effect → Prop
  | .addClient _ fd _ => fd = n
  | .mapName _ cn => isFdKey cn = true
  | _ => False

/-- The effects that note an activity of a client. -/
def Effect.Activates (c : ConnId) : Effect → Prop
  | .addClient d _ _ => d = c
  | .receive d _ => d = c
  | _ => False

theorem byFd_of_byFd_apply {s : Sys} {e : Effect} {n : Int} {c : ConnId} (he : ¬ e.Registers n)
    (h : (s.apply e).byFd n = some c) : s.byFd n = some c := by
  cases e with
  | addClient d fd memory =>
    rw [byFd_addClient, if_neg (fun hn => he hn.symm)] at h
    exact h
  | mapName fd cn =>
    rw [byFd_mapName s fd (Bool.eq_false_iff.mpr he)] at h
    exact h
  | unregister fd => exact byFd_of_byFd_unregister h
  | _ => exact h

theorem byFd_of_byFd_applyAll {s : Sys} {effects : List Effect} {n : Int} {c : ConnId}
    (heffects : ∀ e ∈ effects, ¬ e.Registers n) (h : (s.applyAll effects).byFd n = some c) :
    s.byFd n = some c := by
  induction effects generalizing s with
  | nil => exact h
  | cons e effects ih =>
    rw [List.forall_mem_cons] at heffects
    exact byFd_of_byFd_apply heffects.1 (ih heffects.2 h)

theorem lastActivity_apply (s : Sys) {e : Effect} {c : ConnId} (he : ¬ e.Activates c) :
    ((s.apply e).client c).lastActivity = (s.client c).lastActivity := by
  have hmodify (d : ConnId) {f : Client → Client}
      (hf : ∀ k, (f k).lastActivity = k.lastActivity) :
      ((s.modifyClient d f).client c).lastActivity = (s.client c).lastActivity :=
    s.client_modifyClient_eq d c (g := Client.lastActivity) hf
  cases e with
  | addClient d fd memory => rw [client_addClient_of_ne s fun hc => he hc.symm]
  | receive d chunk =>
    exact congrArg _ (s.client_modifyClient_of_ne (fun hc => he hc.symm) _)
  | mapName fd cn => rw [client_mapName]
  | unregister fd => rw [client_unregister]
  | startSsl d => exact hmodify d fun _ => rfl
  | authenticate d cn =>
    exact hmodify d (f := fun k => { k with authStatus := .success, state := .idle }) fun _ => rfl
  | consume d buffer => exact hmodify d fun _ => rfl
  | copyName d cn => exact hmodify (s.heir d) fun _ => rfl
  | tearDown d => exact hmodify d fun _ => rfl
  | _ => rfl

theorem lastActivity_applyAll (s : Sys) {effects : List Effect} {c : ConnId}
    (heffects : ∀ e ∈ effects, ¬ e.Activates c) :
    ((s.applyAll effects).client c).lastActivity = (s.client c).lastActivity := by
  induction effects generalizing s with
  | nil => rfl
  | cons e effects ih =>
    rw [List.forall_mem_cons] at heffects
    exact (ih _ heffects.2).trans (lastActivity_apply s heffects.1)

/-- At most one client is registered with a number. -/
theorem Owned.eq_of_byFd {s : Sys} (h : Owned s) {c d : ConnId}
    (hget : s.byFd (s.client c).fd = some d) : d = c := by
  obtain ⟨hfd, hpos⟩ := h.entry _ d hget
  exact h.eq_of_fd hfd rfl hpos

/-- A client on the list has been registered. -/
theorem OwnedSys.fd_ne_zero_of_listed {s : Sys} (h : OwnedSys s) {c : ConnId} (hc : s.Listed c) :
    (s.client c).fd ≠ 0 := by
  rcases hc with ⟨fd, -, hget⟩ | htears
  · obtain ⟨hfd, hpos⟩ := h.shared.entry fd c hget
    rw [hfd]
    exact hpos.ne'
  · have hpoint := h.points .sweeper
    cases hpc : s.pc .sweeper with
    | destroy d rest =>
      rw [hpc] at htears hpoint
      cases htears
      exact hpoint.1
    | _ =>
      rw [hpc] at htears
      cases htears

/-- An effect that spares the list registers no number of it. -/
theorem Effect.Spares.not_registers {s : Sys} {e : Effect} (h : e.Spares s) (he : e.Admissible s)
    {n : Int} (hn : n ∈ (s.pc .sweeper).pending) : ¬ e.Registers n := by
  cases e with
  | addClient c fd memory =>
    rintro rfl
    exact h hn
  | mapName fd cn =>
    intro hkey
    exact Bool.false_ne_true (he.symm.trans hkey)
  | _ => exact id

/-- An effect that spares the list notes no activity of a client on it. -/
theorem Effect.Spares.not_activates {s : Sys} (hs : OwnedSys s) {e : Effect} (h : e.Spares s)
    (he : e.Admissible s) {c : ConnId} (hc : s.Listed c) : ¬ e.Activates c := by
  cases e with
  | addClient d fd memory =>
    rintro rfl
    exact hs.fd_ne_zero_of_listed hc he.2.2.1
  | receive d chunk =>
    rintro rfl
    exact h hc
  | _ => exact id

/-- A step of another thread that spares the list. -/
theorem OwnedSys.spared {s : Sys} (h : OwnedSys s) {t : Thread} (ht : t ≠ .sweeper) {input : Input}
    {effects : List Effect} {next : Pc} (hmove : Move s t input effects next)
    (hspares : ∀ e ∈ effects, e.Spares s) : Spared s ((s.applyAll effects).goto t next) := by
  intro c hc
  have hpc : ((s.applyAll effects).goto t next).pc .sweeper = s.pc .sweeper := by
    rw [Sys.pc_goto_of_ne _ ht.symm, Sys.pc_applyAll]
  have hadmissible : ∀ e ∈ effects, e.Admissible s := fun e he => h.admissible hmove he
  have hlisted : s.Listed c := by
    rw [Sys.Listed, hpc] at hc
    rcases hc with ⟨fd, hfd, hget⟩ | htears
    · refine Or.inl ⟨fd, hfd, byFd_of_byFd_applyAll ?_ hget⟩
      exact fun e he => (hspares e he).not_registers (hadmissible e he) hfd
    · exact Or.inr htears
  refine ⟨hlisted, lastActivity_applyAll s ?_⟩
  exact fun e he => (hspares e he).not_activates h (hadmissible e he) hlisted

/-! ## Steps of the sweeper -/

/-- Where the sweeper can stand; during the scan the point carries the time. -/
def Pc.OfSweep (now : Nat) : Pc → Prop
  | .idle | .sweep _ | .remove _ _ | .destroy _ _ => True
  | .scan _ n _ => n = now
  | _ => False

/-- What every step keeps. -/
structure Sweep.Sound (timeout : Int) (x : Sweep) : Prop where
  owned : OwnedSys x.sys
  point : (x.sys.pc .sweeper).OfSweep x.now
  /-- The clients on the list have been inactive for too long. -/
  inactive : ∀ c, x.sys.Listed c → timeout < (x.sys.client c).inactivity x.now

/-- The points at which nothing is on the list. -/
theorem Sys.not_listed {s : Sys} (hpending : (s.pc .sweeper).pending = [])
    (htears : (s.pc .sweeper).tearsDown = none) (c : ConnId) : ¬ s.Listed c := by
  rw [Sys.Listed, hpending, htears]
  rintro (⟨fd, hfd, -⟩ | h)
  · cases hfd
  · cases h

/-- A step of the sweeper that keeps or shortens the list. -/
theorem spared_goto {s s' : Sys} {next : Pc}
    (hpending : ∀ n ∈ next.pending, n ∈ (s.pc .sweeper).pending)
    (htears : ∀ c ∈ next.tearsDown, s.Listed c)
    (hbyFd : ∀ n c, s'.byFd n = some c → s.byFd n = some c)
    (hactivity : ∀ c, (s'.client c).lastActivity = (s.client c).lastActivity) :
    Spared s (s'.goto .sweeper next) := by
  intro c hc
  refine ⟨?_, hactivity c⟩
  rw [Sys.Listed, Sys.pc_goto_self] at hc
  rcases hc with ⟨fd, hfd, hget⟩ | hc
  · exact Or.inl ⟨fd, hpending fd hfd, hbyFd fd c hget⟩
  · exact htears c hc

/-- Outside of the scan the sweeper does what it does with every timeout. -/
theorem Sys.planSweeper_eq_plan {s : Sys} (timeout : Int) (now : Nat) (input : Input)
    (hidle : s.pc .sweeper ≠ .idle) (hscan : (s.pc .sweeper).holdsRead = false) :
    s.planSweeper timeout now input = s.plan .sweeper input := by
  cases hpc : s.pc .sweeper with
  | idle => exact absurd hpc hidle
  | scan todo n found =>
    rw [hpc] at hscan
    cases hscan
  | _ => simp only [planSweeper, hpc]

/-- The removals. -/
theorem spared_of_plan {s : Sys} {now : Nat} {input : Input} {effects : List Effect} {next : Pc}
    (hpoint : (s.pc .sweeper).OfSweep now) (hidle : s.pc .sweeper ≠ .idle)
    (hscan : (s.pc .sweeper).holdsRead = false)
    (h : s.plan .sweeper input = some (effects, next)) :
    Spared s ((s.applyAll effects).goto .sweeper next) ∧ next.OfSweep now := by
  cases hpc : s.pc .sweeper with
  | idle => exact absurd hpc hidle
  | scan todo n found =>
    rw [hpc] at hscan
    cases hscan
  | sweep fds =>
    cases fds with
    | nil =>
      simp only [Sys.plan, hpc] at h
      obtain ⟨rfl, rfl⟩ := Sys.eq_of_plan_eq h
      refine ⟨spared_goto (List.forall_mem_nil _) ?_ (fun _ _ => id) fun _ => rfl, trivial⟩
      exact fun _ hc => by cases hc
    | cons fd rest =>
      simp only [Sys.plan, hpc] at h
      split at h
      · cases h
      · obtain ⟨rfl, rfl⟩ := Sys.eq_of_plan_eq h
        refine ⟨spared_goto ?_ (fun _ hc => by cases hc) (fun _ _ => id) fun _ => rfl, trivial⟩
        rw [hpc]
        exact fun _ => id
  | remove fd rest =>
    simp only [Sys.plan, hpc, Registry.fst_unregister] at h
    split at h
    · cases h
    · have hrest : ∀ n ∈ rest, n ∈ (s.pc .sweeper).pending := by
        rw [hpc]
        exact fun n => List.mem_cons_of_mem fd
      split at h
      · obtain ⟨rfl, rfl⟩ := Sys.eq_of_plan_eq h
        exact ⟨spared_goto hrest (fun _ hc => by cases hc) (fun _ _ => id) fun _ => rfl, trivial⟩
      next c hget =>
        obtain ⟨rfl, rfl⟩ := Sys.eq_of_plan_eq h
        refine ⟨spared_goto hrest ?_ (fun _ _ => byFd_of_byFd_unregister) fun d => ?_, trivial⟩
        · rintro _ ⟨⟩
          refine Or.inl ⟨fd, ?_, hget⟩
          rw [hpc]
          exact List.mem_cons_self
        · exact lastActivity_apply s (e := .unregister fd) id
  | destroy c rest =>
    simp only [Sys.plan, hpc] at h
    split at h
    · cases h
    · obtain ⟨rfl, rfl⟩ := Sys.eq_of_plan_eq h
      refine ⟨spared_goto ?_ (fun _ hc => by cases hc) (fun _ _ => id) fun d => ?_, trivial⟩
      · rw [hpc]
        exact fun _ => id
      · exact lastActivity_apply s (e := .tearDown c) id
  | _ =>
    rw [hpc] at hpoint
    cases hpoint

namespace Sweep.Sound

variable {timeout : Int} {x : Sweep}

/-- A step that spares the list. -/
theorem of_spared (h : x.Sound timeout) {s' : Sys} (howned : OwnedSys s')
    (hpoint : (s'.pc .sweeper).OfSweep x.now) (hspared : Spared x.sys s') :
    Sweep.Sound timeout ⟨s', x.now⟩ := by
  refine ⟨howned, hpoint, fun c hc => ?_⟩
  obtain ⟨hlisted, hactivity⟩ := hspared c hc
  have hinactive := h.inactive c hlisted
  rw [Client.inactivity] at hinactive ⊢
  rw [hactivity]
  exact hinactive

/-- The sweeper goes on with a list of numbers whose clients have been inactive for too long. -/
theorem goto (h : x.Sound timeout) {next : Pc}
    (howned : PointOwned x.sys .sweeper next) (hpoint : next.OfSweep x.now)
    (htears : next.tearsDown = none) (hpending : ∀ fd ∈ next.pending, ∀ c,
      x.sys.byFd fd = some c → timeout < (x.sys.client c).inactivity x.now) :
    Sweep.Sound timeout ⟨x.sys.goto .sweeper next, x.now⟩ := by
  refine ⟨h.owned.quiet (List.forall_mem_nil _) howned, ?_, ?_⟩
  · rw [Sys.pc_goto_self]
    exact hpoint
  · rintro c (⟨fd, hfd, hget⟩ | hc)
    · rw [Sys.pc_goto_self] at hfd
      exact hpending fd hfd c hget
    · rw [Sys.pc_goto_self, htears] at hc
      cases hc

/-- The next client of the scan goes on the list if it has been inactive for too long. Nobody else
is registered under its number. -/
theorem scan (h : x.Sound timeout) {todo : List ConnId} {now : Nat} {found : List Int}
    (hpc : x.sys.pc .sweeper = .scan todo now found) {effects : List Effect} {next : Pc}
    (hplan : x.sys.planScanFor timeout now found todo = some (effects, next)) :
    Sweep.Sound timeout ⟨(x.sys.applyAll effects).goto .sweeper next, x.now⟩ := by
  have hnow := h.point
  rw [hpc] at hnow
  have hfound : ∀ fd ∈ found, ∀ c, x.sys.byFd fd = some c →
      timeout < (x.sys.client c).inactivity x.now := by
    intro fd hfd c hget
    refine h.inactive c (Or.inl ⟨fd, ?_, hget⟩)
    rw [hpc]
    exact hfd
  cases todo with
  | nil =>
    obtain ⟨rfl, rfl⟩ := Sys.eq_of_plan_eq hplan
    exact h.goto nofun trivial rfl hfound
  | cons c todo =>
    simp only [Sys.planScanFor] at hplan
    split at hplan
    · cases hplan
    · split at hplan
      next hidle =>
        obtain ⟨rfl, rfl⟩ := Sys.eq_of_plan_eq hplan
        refine h.goto nofun hnow rfl fun fd hfd d hget => ?_
        rcases List.mem_append.mp hfd with hfd | hfd
        · exact hfound fd hfd d hget
        · obtain rfl := List.mem_singleton.mp hfd
          rw [h.owned.shared.eq_of_byFd hget, ← hnow]
          exact hidle.2
      · obtain ⟨rfl, rfl⟩ := Sys.eq_of_plan_eq hplan
        exact h.goto nofun hnow rfl hfound

/-- A removal. -/
theorem removal (h : x.Sound timeout) {input : Input} (hname : Act.NamePlain ⟨.sweeper, input⟩)
    (hidle : x.sys.pc .sweeper ≠ .idle) (hscan : (x.sys.pc .sweeper).holdsRead = false)
    {effects : List Effect} {next : Pc}
    (hplan : x.sys.planSweeper timeout x.now input = some (effects, next)) :
    Sweep.Sound timeout ⟨(x.sys.applyAll effects).goto .sweeper next, x.now⟩ := by
  rw [Sys.planSweeper_eq_plan _ _ _ hidle hscan] at hplan
  obtain ⟨hspared, hpoint⟩ := spared_of_plan h.point hidle hscan hplan
  refine h.of_spared (h.owned.move hname (Sys.plan_move hplan)) ?_ hspared
  rw [Sys.pc_goto_self]
  exact hpoint

/-- Every step of the sweeper keeps the list sound. -/
theorem sweeper (h : x.Sound timeout) {input : Input} (hname : Act.NamePlain ⟨.sweeper, input⟩)
    {effects : List Effect} {next : Pc}
    (hplan : x.sys.planSweeper timeout x.now input = some (effects, next)) :
    Sweep.Sound timeout ⟨(x.sys.applyAll effects).goto .sweeper next, x.now⟩ := by
  cases hpc : x.sys.pc .sweeper with
  | idle =>
    simp only [Sys.planSweeper, hpc] at hplan
    split at hplan
    · obtain ⟨rfl, rfl⟩ := Sys.eq_of_plan_eq hplan
      exact h.goto nofun rfl rfl nofun
    · cases hplan
  | scan todo now found =>
    simp only [Sys.planSweeper, hpc] at hplan
    exact h.scan hpc hplan
  | _ => exact h.removal hname (by simp [hpc]) (by rw [hpc]; rfl) hplan

/-- Every step keeps the list sound if nothing disturbs the sweep. -/
theorem step (h : x.Sound timeout) {a : SweepAct} (hok : x.Undisturbed timeout a) {x' : Sweep}
    (hs : x.step timeout a = some x') : x'.Sound timeout := by
  cases a with
  | readTime =>
    rw [Sweep.step] at hs
    split at hs
    next hidle =>
      obtain rfl := Option.some.inj hs
      have hnone := Sys.not_listed (s := x.sys) (by rw [hidle]; rfl) (by rw [hidle]; rfl)
      refine ⟨h.owned, ?_, fun c hc => absurd hc (hnone c)⟩
      rw [hidle]
      trivial
    · cases hs
  | step a =>
    obtain ⟨⟨effects, next⟩, hplan, rfl⟩ := Option.map_eq_some_iff.mp hs
    obtain ⟨hspares, hname⟩ := hok
    rw [Sweep.effects, hplan] at hspares
    rw [Sys.planSweep] at hplan
    obtain ⟨t, input⟩ := a
    by_cases ht : t = .sweeper
    · subst ht
      rw [if_pos rfl] at hplan
      exact h.sweeper hname hplan
    · rw [if_neg ht] at hplan
      have hmove := Sys.plan_move hplan
      refine h.of_spared (h.owned.move hname hmove) ?_ (h.owned.spared ht hmove hspares)
      rw [Sys.pc_goto_of_ne _ (Ne.symm ht), Sys.pc_applyAll]
      exact h.point

end Sweep.Sound

theorem Sweep.sound_init (timeout : Int) (policy : Policy) (db : Database) :
    Sweep.Sound timeout ⟨.init policy db, 0⟩ :=
  ⟨ownedSys_init policy db, trivial, fun c hc => absurd hc (Sys.not_listed rfl rfl c)⟩

/-- In every run in which no data is read from a client on the list of the sweep, the accept loop
registers no number on the list, and no accepted common name is a descriptor key: every connection
that the sweeper takes out of the registry or tears down has been without activity for more than
the timeout, counted from its own last activity to the time that the sweep read. -/
theorem sweep_removes_inactive (timeout : Int) (policy : Policy) (db : Database) (x : Sweep)
    (h : Reaches (Sweep.step timeout) (Sweep.Undisturbed timeout) ⟨.init policy db, 0⟩ x)
    (c : ConnId) (hc : x.sys.removes = some c) :
    timeout < (x.sys.client c).inactivity x.now := by
  have hsound := h.invariant (Sweep.sound_init timeout policy db) fun _ _ _ h hok hs =>
    h.step hok hs
  exact hsound.inactive c (Sys.listed_of_removes hc)

instance (s : Sys) (c : ConnId) : Decidable (s.Listed c) :=
  inferInstanceAs (Decidable ((∃ fd ∈ (s.pc .sweeper).pending, s.byFd fd = some c) ∨ _))

instance (s : Sys) (e : Effect) : Decidable (e.Spares s) := by
  unfold Effect.Spares
  cases e with
  | receive c chunk => exact inferInstanceAs (Decidable (¬ s.Listed c))
  | addClient c fd memory => exact inferInstanceAs (Decidable (fd ∉ _))
  | _ => exact instDecidableTrue

instance (timeout : Int) (x : Sweep) (a : SweepAct) : Decidable (x.Undisturbed timeout a) := by
  cases a with
  | readTime => exact instDecidableTrue
  | step a => exact inferInstanceAs (Decidable ((∀ e ∈ x.effects timeout a, e.Spares x.sys) ∧ _))

/-- A client does nothing for 61 seconds. -/
def silentActs : List Act :=
  acceptActs 5 ++ handshakeActs 5 (ascii "pump") ++ List.replicate 61 ⟨.main, .tick⟩

/-- The sweeper puts the silent client on its list, something else happens, and the sweeper is about
to remove what it has on the list. -/
def sweepActs (between : List Act) : List SweepAct :=
  silentActs.map .step ++ .readTime :: (Thread.going .sweeper 3).map .step ++
    between.map .step ++ [.step ⟨.sweeper, .go⟩]

/-- A client that stays silent is removed after more than a minute. -/
theorem sweep_removes_inactive_sweepActs :
    ∃ x : Sweep, Reaches (Sweep.step 60) (Sweep.Undisturbed 60) ⟨.init .none .empty, 0⟩ x ∧
      x.sys.removes = some 0 ∧ x.now = 61 ∧ 60 < (x.sys.client 0).inactivity x.now := by
  have hrun : (run (guarded (Sweep.step 60) (Sweep.Undisturbed 60)) ⟨.init .none .empty, 0⟩
      (sweepActs [])).map (fun x => (x.sys.removes, x.now)) =
      some (some 0, 61) := by decide +kernel
  obtain ⟨x, hx, hproj⟩ := Option.map_eq_some_iff.mp hrun
  obtain ⟨hremoves, hnow⟩ := Prod.mk.inj hproj
  have hreach := reaches_of_run hx
  exact ⟨x, hreach, hremoves, hnow, sweep_removes_inactive 60 _ _ x hreach 0 hremoves⟩

/-- Between the scan and the removal a worker reads a line of the client. -/
def busyActs : List Act :=
  eventActs 5 ++ ⟨.worker 0, .data (ascii "PING\n")⟩ :: Thread.going (.worker 0) 2

/-- Between the scan and the removal the client leaves, and a new connection gets its number. -/
def replacedActs : List Act :=
  eventActs 5 ++ ⟨.worker 0, .sslError⟩ :: Thread.going (.worker 0) 4 ++ acceptActs 5

/-- Without the condition the sweeper takes a client out of the registry that was active in the
very second of the sweep, or one that was accepted after the scan. -/
theorem sweep_removes_active_busyActs :
    (∃ x x' : Sweep, Reaches (Sweep.step 60) (fun _ _ => True) ⟨.init .none .empty, 0⟩ x ∧
      x.sys.removes = some 0 ∧ (x.sys.client 0).inactivity x.now = 0 ∧
      x.step 60 (.step ⟨.sweeper, .go⟩) = some x' ∧ x'.sys.byFd 5 = none) ∧
    ∃ x x' : Sweep, Reaches (Sweep.step 60) (fun _ _ => True) ⟨.init .none .empty, 0⟩ x ∧
      x.sys.removes = some 1 ∧ (x.sys.client 1).inactivity x.now = 0 ∧
      x.step 60 (.step ⟨.sweeper, .go⟩) = some x' ∧ x'.sys.byFd 5 = none := by
  have hremoved (between : List Act) (c : ConnId)
      (hrun : (run (guarded (Sweep.step 60) fun _ _ => True) ⟨.init .none .empty, 0⟩
        (sweepActs between)).map (fun x => (x.sys.removes, (x.sys.client c).inactivity x.now,
          (x.step 60 (.step ⟨.sweeper, .go⟩)).map fun x' => x'.sys.byFd 5)) =
        some (some c, 0, some none)) :
      ∃ x x' : Sweep, Reaches (Sweep.step 60) (fun _ _ => True) ⟨.init .none .empty, 0⟩ x ∧
        x.sys.removes = some c ∧ (x.sys.client c).inactivity x.now = 0 ∧
        x.step 60 (.step ⟨.sweeper, .go⟩) = some x' ∧ x'.sys.byFd 5 = none := by
    obtain ⟨x, hx, hproj⟩ := Option.map_eq_some_iff.mp hrun
    obtain ⟨hremoves, hproj⟩ := Prod.mk.inj hproj
    obtain ⟨hinactivity, hstep⟩ := Prod.mk.inj hproj
    obtain ⟨x', hx', hget⟩ := Option.map_eq_some_iff.mp hstep
    exact ⟨x, x', reaches_of_run hx, hremoves, hinactivity, hx', hget⟩
  exact ⟨hremoved busyActs 0 (by decide +kernel), hremoved replacedActs 1 (by decide +kernel)⟩

end AdMQ
