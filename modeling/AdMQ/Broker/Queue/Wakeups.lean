import AdMQ.Broker.Queue.TsQueue

/-!
# No lost wake-up

`queue_write` and `queue_read` wake one thread each. That is enough: a reader
sleeps on `not_empty` only while as many woken readers are on their way to the lock
as there are tasks, and a writer sleeps on `not_full` only while as many woken
writers are on their way as there are free places.
-/

namespace AdMQ

open Core

variable {ι α : Type*}

/-- Readers wait for tasks. -/
theorem wakes_notEmpty : (queueMonitor α).Wakes .notEmpty TsQueue.count where
  wait call q hcond h := by
    cases call with
    | write data => cases hcond
    | shutdown => cases hcond
    | read =>
      simp only [queueMonitor, queueRead] at h
      split at h
      next hwait => exact hwait.1
      next =>
        split at h
        · cases h
        · split at h <;> cases h
  leave call q q' reply k h := by
    cases call with
    | write data =>
      obtain ⟨-, rfl, -, rfl⟩ := leave_of_queueWrite h
      simp [queueMonitor, Notify.reaches, TsQueue.stored]
    | read =>
      rcases leave_of_queueRead h with ⟨hzero, -, rfl, -, -⟩ | ⟨data, n, hn, -, rfl, -, -⟩
      · simp [hzero]
      · simp [queueMonitor, TsQueue.advanced]
    | shutdown =>
      cases h
      simp [queueMonitor]

/-- Writers wait for free places. -/
theorem wakes_notFull : (queueMonitor α).Wakes .notFull fun q => queueMaxSize - q.count where
  wait call q hcond h := by
    cases call with
    | read => cases hcond
    | shutdown => cases hcond
    | write data =>
      simp only [queueMonitor, queueWrite] at h
      split at h
      next hfull => rw [hfull, Nat.sub_self]
      next =>
        split at h <;> cases h
  leave call q q' reply k h := by
    cases call with
    | write data =>
      obtain ⟨-, rfl, -, rfl⟩ := leave_of_queueWrite h
      simp only [queueMonitor, TsQueue.stored, if_true]
      omega
    | read =>
      rcases leave_of_queueRead h with ⟨-, -, rfl, -, rfl⟩ | ⟨data, n, hn, -, rfl, -, rfl⟩
      · simp [queueMonitor]
      · have hplace : queueMaxSize - (q.count - 1) ≤ queueMaxSize - q.count + 1 := by omega
        simpa [queueMonitor, TsQueue.advanced, Notify.reaches] using hplace
    | shutdown =>
      cases h
      simp [queueMonitor]

variable [Fintype ι]

theorem wokenCount_notEmpty_eq_zero {status : ι → Status (QueueCall α)}
    (h : ∀ t, status t ≠ .woken .read) : (queueMonitor α).wokenCount .notEmpty status = 0 := by
  rw [Monitor.wokenCount, Finset.card_eq_zero, Finset.filter_eq_empty_iff]
  intro t _ hwoken
  cases ht : status t with
  | awake => simp [ht, Monitor.wokenFrom] at hwoken
  | asleep call => simp [ht, Monitor.wokenFrom] at hwoken
  | woken call =>
    cases call with
    | read => exact h t ht
    | write data => simp [ht, Monitor.wokenFrom, queueMonitor] at hwoken
    | shutdown => simp [ht, Monitor.wokenFrom, queueMonitor] at hwoken

variable [DecidableEq ι]

/-- In every reachable state: while a reader sleeps, at least as many woken readers are on their
way as there are tasks; while a writer sleeps, at least as many woken writers as there are free
places. So no task is left while all readers sleep. -/
theorem no_lost_wakeup (q : TsQueue α)
    (s : MonitorState ι (QueueCall α) (TsQueue α) (QueueReply α)) (h : QueueReaches q s) :
    ((∃ t, s.status t = .asleep .read) →
      s.shared.count ≤ (queueMonitor α).wokenCount .notEmpty s.status) ∧
    ((∃ t data, s.status t = .asleep (.write data)) →
      100 - s.shared.count ≤ (queueMonitor α).wokenCount .notFull s.status) ∧
    ((∃ t, s.status t = .asleep .read) → (∀ t, s.status t ≠ .woken .read) →
      s.shared.count = 0) := by
  have hreaders := wakes_notEmpty.covered h
  have hwriters := wakes_notFull.covered h
  refine ⟨?_, ?_, ?_⟩
  · rintro ⟨t, ht⟩
    exact hreaders ⟨t, by simp [ht, Monitor.sleepsOn, queueMonitor]⟩
  · rintro ⟨t, data, ht⟩
    exact hwriters ⟨t, by simp [ht, Monitor.sleepsOn, queueMonitor]⟩
  · rintro ⟨t, ht⟩ hnone
    have hcount := hreaders ⟨t, by simp [ht, Monitor.sleepsOn, queueMonitor]⟩
    rw [wokenCount_notEmpty_eq_zero hnone] at hcount
    exact Nat.le_zero.mp hcount

/-! ## Runs -/

/-- Two workers sleep, a task wakes the first of them, a third thread takes the task before it,
and the next task wakes the second. -/
def overtakingActs : List (MonitorAct (Fin 4) (QueueCall Nat)) :=
  [.call 1 .read none, .call 2 .read none, .call 0 (.write 7) (some 1), .call 3 .read none,
    .call 3 .read none, .call 0 (.write 8) (some 2)]

/-- A worker sleeps beside a task; two others are on their way. -/
theorem no_lost_wakeup_overtakingActs :
    ∃ s : MonitorState (Fin 4) _ _ _, QueueReaches (.blank 0) s ∧
      s.status 3 = .asleep .read ∧ s.shared.count = 1 ∧
      1 ≤ (queueMonitor Nat).wokenCount .notEmpty s.status := by
  have hrun : (run (guarded (queueMonitor Nat).step fun _ _ => True)
      (Monitor.start (queueInit (.blank 0))) overtakingActs).map
      (fun s => (s.status 3, s.shared.count)) = some (.asleep .read, 1) := by
    decide +kernel
  obtain ⟨s, hs, hproj⟩ := Option.map_eq_some_iff.mp hrun
  obtain ⟨hasleep, hcount⟩ := Prod.mk.inj hproj
  have hreach := reaches_of_run hs
  have hwoken := (no_lost_wakeup _ s hreach).1 ⟨3, hasleep⟩
  rw [hcount] at hwoken
  exact ⟨s, hreach, hasleep, hcount, hwoken⟩

end AdMQ
