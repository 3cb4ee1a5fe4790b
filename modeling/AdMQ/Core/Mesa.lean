import AdMQ.Core.Transition
import Mathlib.Algebra.Order.BigOperators.Group.Finset
import Mathlib.Data.Fintype.BigOperators

/-!
# Monitors with Mesa semantics

A monitor is a shared state behind one lock. A thread calls a job, gets the lock
and runs the job's section to the point where it waits or leaves; nobody else sees
the states in between, so a section is one step. A wait releases the lock and puts
the thread to sleep on a condition variable. A signal moves one sleeper to the
runnable threads, and the woken thread runs its section from the start once it has
the lock again: others may get the lock before it, and it may wake up unasked.

Two rules: an invariant of the shared state and of the history of the calls, and
an invariant that counts wake-ups against what the sleepers wait for.
-/

namespace Core

variable {ι δ σ κ ρ : Type*}

/-- What a thread does: nothing here, or a job that waits for a condition, asleep or woken. -/
inductive Status (δ : Type*) where
  | awake
  | asleep (job : δ)
  | woken (job : δ)
  deriving DecidableEq

/-- Whom a section wakes as it leaves. -/
inductive Notify (κ : Type*) where
  | nobody
  /-- `signal`: one sleeper, if there is any. -/
  | one (c : κ)
  /-- `broadcast`: every sleeper of these conditions. -/
  | every (cs : List κ)
  deriving DecidableEq

/-- Whether a section wakes a sleeper of this condition. -/
def Notify.reaches [DecidableEq κ] (c : κ) : Notify κ → Bool
  | .nobody => false
  | .one c' => c' == c
  | .every cs => cs.contains c

/-- How a section ends. -/
inductive Outcome (σ κ ρ : Type*) where
  | wait
  | leave (shared : σ) (result : ρ) (notify : Notify κ)

/-- The sections of a monitor: what a job does from the point where it has the lock, and the
condition it may wait for. A section without a defined behaviour has no outcome. -/
structure Monitor (δ σ κ ρ : Type*) where
  enter : δ → σ → Option (Outcome σ κ ρ)
  cond : δ → Option κ

/-- A monitor with its threads, and the calls that have left it, latest first. -/
structure MonitorState (ι δ σ ρ : Type*) where
  shared : σ
  status : ι → Status δ
  history : List (δ × ρ)

/-- The moves of the threads. The thread that a signal wakes is a choice of the scheduler. -/
inductive MonitorAct (ι δ : Type*) where
  | call (t : ι) (job : δ) (signalled : Option ι)
  | resume (t : ι) (signalled : Option ι)
  | wake (t : ι)

namespace Monitor

variable [Fintype ι] [DecidableEq ι] [DecidableEq κ] (m : Monitor δ σ κ ρ) {c : κ}

/-- All threads outside, and nothing done yet. -/
def start (shared : σ) : MonitorState ι δ σ ρ := ⟨shared, fun _ => .awake, []⟩

def sleepsOn (c : κ) : Status δ → Bool
  | .asleep job => m.cond job == some c
  | _ => false

def wokenFrom (c : κ) : Status δ → Bool
  | .woken job => m.cond job == some c
  | _ => false

/-- One sleeper becomes runnable; nothing happens only if nobody sleeps. -/
def signal (c : κ) (status : ι → Status δ) : Option ι → Option (ι → Status δ)
  | none => if ∀ t, m.sleepsOn c (status t) = false then some status else none
  | some u =>
    match status u with
    | .asleep job =>
      if m.cond job = some c then some (Function.update status u (.woken job)) else none
    | _ => none

/-- Every sleeper of the conditions becomes runnable. -/
def broadcast (cs : List κ) (status : ι → Status δ) : ι → Status δ := fun t =>
  match status t with
  | .asleep job => if ∃ c ∈ cs, m.cond job = some c then .woken job else .asleep job
  | other => other

def notify (status : ι → Status δ) (signalled : Option ι) : Notify κ → Option (ι → Status δ)
  | .nobody => some status
  | .one c => m.signal c status signalled
  | .every cs => some (m.broadcast cs status)

/-- A thread gets the lock for a job and keeps it to the end of the section. -/
def runSection (s : MonitorState ι δ σ ρ) (t : ι) (job : δ) (signalled : Option ι) :
    Option (MonitorState ι δ σ ρ) :=
  match m.enter job s.shared with
  | none => none
  | some .wait => some { s with status := Function.update s.status t (.asleep job) }
  | some (.leave shared result n) =>
    match m.notify (Function.update s.status t .awake) signalled n with
    | none => none
    | some status => some ⟨shared, status, (job, result) :: s.history⟩

def step (s : MonitorState ι δ σ ρ) : MonitorAct ι δ → Option (MonitorState ι δ σ ρ)
  | .call t job signalled =>
    match s.status t with
    | .awake => m.runSection s t job signalled
    | _ => none
  | .resume t signalled =>
    match s.status t with
    | .woken job => m.runSection s t job signalled
    | _ => none
  | .wake t =>
    match s.status t with
    | .asleep job => some { s with status := Function.update s.status t (.woken job) }
    | _ => none

/-- Everything a step can be. -/
inductive Move (s : MonitorState ι δ σ ρ) : MonitorState ι δ σ ρ → Prop where
  | wake {t : ι} {job : δ} : s.status t = .asleep job →
      Move s { s with status := Function.update s.status t (.woken job) }
  | wait {t : ι} {job : δ} : s.status t = .awake ∨ s.status t = .woken job →
      m.enter job s.shared = some .wait →
      Move s { s with status := Function.update s.status t (.asleep job) }
  | leave {t : ι} {job : δ} {shared : σ} {result : ρ} {n : Notify κ} {signalled : Option ι}
      {status : ι → Status δ} : s.status t = .awake ∨ s.status t = .woken job →
      m.enter job s.shared = some (.leave shared result n) →
      m.notify (Function.update s.status t .awake) signalled n = some status →
      Move s ⟨shared, status, (job, result) :: s.history⟩

variable {m} {s s' : MonitorState ι δ σ ρ}

theorem move_of_runSection {t : ι} {job : δ} {signalled : Option ι}
    (ht : s.status t = .awake ∨ s.status t = .woken job)
    (h : m.runSection s t job signalled = some s') : m.Move s s' := by
  rw [runSection] at h
  cases henter : m.enter job s.shared with
  | none => simp [henter] at h
  | some outcome =>
    cases outcome with
    | wait =>
      simp only [henter, Option.some.injEq] at h
      exact h ▸ .wait ht henter
    | leave shared result n =>
      simp only [henter] at h
      cases hnotify : m.notify (Function.update s.status t .awake) signalled n with
      | none => simp [hnotify] at h
      | some status =>
        simp only [hnotify, Option.some.injEq] at h
        exact h ▸ .leave ht henter hnotify

theorem move_of_step {a : MonitorAct ι δ} (h : m.step s a = some s') : m.Move s s' := by
  cases a with
  | call t job signalled =>
    cases ht : s.status t <;> simp only [step, ht, reduceCtorEq] at h
    exact move_of_runSection (.inl ht) h
  | resume t signalled =>
    cases ht : s.status t <;> simp only [step, ht, reduceCtorEq] at h
    exact move_of_runSection (.inr ht) h
  | wake t =>
    cases ht : s.status t <;> simp only [step, ht, reduceCtorEq, Option.some.injEq] at h
    exact h ▸ .wake ht

/-- The rule of invariants for the shared state and the history: only a section that leaves
changes them. -/
theorem shared_invariant {Inv : σ → List (δ × ρ) → Prop} {shared : σ} (hstart : Inv shared [])
    (hleave : ∀ job shared shared' result n history, Inv shared history →
      m.enter job shared = some (.leave shared' result n) → Inv shared' ((job, result) :: history))
    {ok : MonitorState ι δ σ ρ → MonitorAct ι δ → Prop}
    (h : Reaches m.step ok (start shared) s) : Inv s.shared s.history := by
  induction h with
  | start => exact hstart
  | next _ _ hs ih =>
    cases move_of_step hs with
    | wake ht => exact ih
    | wait ht henter => exact ih
    | leave ht henter hnotify => exact hleave _ _ _ _ _ _ ih henter

/-! ## Wake-ups -/

variable (m) in
/-- How many threads have been woken from a condition and have not got the lock since. -/
def wokenCount (c : κ) (status : ι → Status δ) : Nat :=
  (Finset.univ.filter fun t => m.wokenFrom c (status t) = true).card

variable (m) in
/-- If somebody sleeps, at least `n` threads are on their way. -/
def Covered (c : κ) (status : ι → Status δ) (n : Nat) : Prop :=
  (∃ t, m.sleepsOn c (status t) = true) → n ≤ m.wokenCount c status

/-- The count changes by what the changed thread contributes. -/
theorem wokenCount_update (status : ι → Status δ) (t : ι) (new : Status δ) :
    m.wokenCount c (Function.update status t new) + (m.wokenFrom c (status t)).toNat =
      m.wokenCount c status + (m.wokenFrom c new).toNat := by
  have hsum : ∀ st : ι → Status δ, m.wokenCount c st =
      (m.wokenFrom c (st t)).toNat + ∑ u ∈ Finset.univ.erase t, (m.wokenFrom c (st u)).toNat := by
    intro st
    rw [wokenCount, Finset.card_filter, Finset.add_sum_erase _
      (fun u => (m.wokenFrom c (st u)).toNat) (Finset.mem_univ t)]
    refine Finset.sum_congr rfl ?_
    intro u _
    cases m.wokenFrom c (st u) <;> rfl
  have hrest : ∑ u ∈ Finset.univ.erase t, (m.wokenFrom c (Function.update status t new u)).toNat =
      ∑ u ∈ Finset.univ.erase t, (m.wokenFrom c (status u)).toNat := by
    refine Finset.sum_congr rfl ?_
    intro u hu
    rw [Function.update_of_ne (Finset.ne_of_mem_erase hu)]
  rw [hsum, hsum status, hrest, Function.update_self]
  omega

variable {status status' : ι → Status δ} {n : Nat}

omit [DecidableEq ι] in
theorem covered_zero : m.Covered c status 0 := by
  intro _
  exact Nat.zero_le _

omit [DecidableEq ι] in
theorem Covered.mono (h : m.Covered c status n) {k : Nat} (hk : k ≤ n) : m.Covered c status k := by
  intro hsleeps
  exact hk.trans (h hsleeps)

/-- One thread changes and is no new sleeper: the cover changes by what it contributes. -/
theorem Covered.update (h : m.Covered c status n) {t : ι} {new : Status δ} {k : Nat}
    (hnew : m.sleepsOn c new = false)
    (hk : k + (m.wokenFrom c (status t)).toNat ≤ n + (m.wokenFrom c new).toNat) :
    m.Covered c (Function.update status t new) k := by
  rintro ⟨u, hu⟩
  have hsleeps : m.sleepsOn c (status u) = true := by
    by_cases hut : u = t
    · rw [hut, Function.update_self, hnew] at hu
      cases hu
    · rwa [Function.update_of_ne hut] at hu
  have hcount := h ⟨u, hsleeps⟩
  have hupdate := m.wokenCount_update (c := c) status t new
  omega

/-- A sleeper that wakes up only adds to the cover. -/
theorem Covered.wake (h : m.Covered c status n) {t : ι} {job : δ} (ht : status t = .asleep job) :
    m.Covered c (Function.update status t (.woken job)) n :=
  h.update rfl (by simp [ht, wokenFrom])

/-- A thread that falls asleep on another condition changes nothing. -/
theorem Covered.sleep (h : m.Covered c status n) {t : ι} {job : δ}
    (ht : status t = .awake ∨ status t = .woken job) (hcond : m.cond job ≠ some c) :
    m.Covered c (Function.update status t (.asleep job)) n := by
  refine h.update (by simp [sleepsOn, hcond]) ?_
  rcases ht with ht | ht
  · simp [ht, wokenFrom]
  · simp [ht, wokenFrom, hcond]

/-- A thread that gets the lock counts no more. -/
theorem Covered.enter (h : m.Covered c status n) {t : ι} {job : δ}
    (ht : status t = .awake ∨ status t = .woken job) :
    m.Covered c (Function.update status t .awake) (if m.cond job = some c then n - 1 else n) := by
  rcases ht with ht | ht
  · refine h.update rfl ?_
    rw [ht]
    split
    · exact Nat.sub_le n 1
    · exact Nat.le_refl n
  · by_cases hcond : m.cond job = some c
    · rw [if_pos hcond]
      cases n with
      | zero => exact covered_zero
      | succ n => exact h.update rfl (by simp [ht, wokenFrom, hcond])
    · rw [if_neg hcond]
      exact h.update rfl (by simp [ht, wokenFrom, hcond])

/-- A signal adds one thread on its way, or finds nobody asleep. -/
theorem Covered.signal (h : m.Covered c status n) {c' : κ} {signalled : Option ι}
    (hs : m.signal c' status signalled = some status') :
    m.Covered c status' (n + (c' == c).toNat) := by
  cases signalled with
  | none =>
    rw [Monitor.signal] at hs
    split at hs
    next hnobody =>
      cases hs
      by_cases hc : c' = c
      · rintro ⟨t, ht⟩
        rw [← hc, hnobody t] at ht
        cases ht
      · rw [beq_false_of_ne hc]
        exact h
    next => cases hs
  | some u =>
    cases hu : status u <;> simp only [Monitor.signal, hu, reduceCtorEq] at hs
    rename_i job
    split at hs
    next hjob =>
      cases hs
      by_cases hc : c' = c
      · exact h.update rfl (by simp [hu, wokenFrom, hjob, hc])
      · rw [beq_false_of_ne hc]
        exact h.wake hu
    next => cases hs

omit [Fintype ι] [DecidableEq ι] in
/-- A broadcast leaves nobody asleep on its conditions. -/
theorem sleepsOn_broadcast {cs : List κ} (hc : c ∈ cs) (t : ι) :
    m.sleepsOn c (m.broadcast cs status t) = false := by
  rw [broadcast]
  cases status t with
  | awake => rfl
  | woken job => rfl
  | asleep job =>
    by_cases hjob : ∃ c ∈ cs, m.cond job = some c
    · simp [hjob, sleepsOn]
    · have hne : m.cond job ≠ some c := by
        intro heq
        exact hjob ⟨c, hc, heq⟩
      simp [hjob, sleepsOn, hne]

omit [Fintype ι] [DecidableEq ι] in
/-- Who sleeps after a broadcast slept before. -/
theorem sleepsOn_of_broadcast {cs : List κ} {t : ι}
    (h : m.sleepsOn c (m.broadcast cs status t) = true) : m.sleepsOn c (status t) = true := by
  rw [broadcast] at h
  cases ht : status t with
  | awake => simp [ht, sleepsOn] at h
  | woken job => simp [ht, sleepsOn] at h
  | asleep job =>
    by_cases hjob : ∃ c ∈ cs, m.cond job = some c
    · simp [ht, hjob, sleepsOn] at h
    · simpa [ht, hjob] using h

omit [DecidableEq ι] in
theorem wokenCount_broadcast (cs : List κ) :
    m.wokenCount c status ≤ m.wokenCount c (m.broadcast cs status) := by
  refine Finset.card_le_card ?_
  intro t ht
  rw [Finset.mem_filter] at ht ⊢
  refine ⟨ht.1, ?_⟩
  rw [broadcast]
  cases hst : status t with
  | awake => simp [hst, wokenFrom] at ht
  | asleep job => simp [hst, wokenFrom] at ht
  | woken job => simpa [hst] using ht.2

omit [DecidableEq ι] in
theorem Covered.broadcast (h : m.Covered c status n) (cs : List κ) :
    m.Covered c (m.broadcast cs status) (n + (cs.contains c).toNat) := by
  rintro ⟨t, ht⟩
  by_cases hc : c ∈ cs
  · rw [sleepsOn_broadcast hc] at ht
    cases ht
  · have hcount := h ⟨t, sleepsOn_of_broadcast ht⟩
    simpa [hc] using hcount.trans (wokenCount_broadcast cs)

theorem Covered.notify (h : m.Covered c status n) {k : Notify κ} {signalled : Option ι}
    (hs : m.notify status signalled k = some status') :
    m.Covered c status' (n + (k.reaches c).toNat) := by
  cases k with
  | nobody =>
    cases hs
    exact h
  | one c' => exact h.signal hs
  | every cs =>
    cases hs
    exact h.broadcast cs

variable (m) in
/-- A condition is signalled as often as it has to be, where `n` says how many of its sleepers
could go on: a job waits for it only when nobody could, takes one place when it leaves, and
whoever makes a place wakes a sleeper. -/
structure Wakes (c : κ) (n : σ → Nat) : Prop where
  wait : ∀ job shared, m.cond job = some c → m.enter job shared = some .wait → n shared = 0
  leave : ∀ job shared shared' result k, m.enter job shared = some (.leave shared' result k) →
    n shared' ≤ (if m.cond job = some c then n shared - 1 else n shared) + (k.reaches c).toNat

/-- No lost wake-up: as many threads are on their way as could go on, as long as one sleeps. -/
theorem Wakes.covered {n : σ → Nat} (hw : m.Wakes c n) {shared : σ}
    {ok : MonitorState ι δ σ ρ → MonitorAct ι δ → Prop}
    (h : Reaches m.step ok (start shared) s) : m.Covered c s.status (n s.shared) := by
  induction h with
  | start =>
    rintro ⟨t, ht⟩
    cases ht
  | @next s _ _ _ _ hs ih =>
    cases move_of_step hs with
    | wake ht => exact ih.wake ht
    | @wait t job ht henter =>
      by_cases hcond : m.cond job = some c
      · simp only [hw.wait job s.shared hcond henter]
        exact covered_zero
      · exact ih.sleep ht hcond
    | leave ht henter hnotify =>
      exact ((ih.enter ht).notify hnotify).mono (hw.leave _ _ _ _ _ henter)

end Monitor

end Core
