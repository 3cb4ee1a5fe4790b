import AdMQ.Core.Journal
import AdMQ.Core.Mesa
import AdMQ.Core.Ring

/-!
# The task queue

The queue between the main loop and the workers is a circular buffer of pointers
behind one mutex with two condition variables. `queue_write`, `queue_read` and
`queue_shutdown` are sections of a monitor: from the lock, or from the return of a
wait, to the unlock or the next wait. Over any interleaving of any number of
threads the buffer holds, in order, what was written and has not been read.
-/

namespace AdMQ

open Core

variable {ι α : Type*}

/-- `QUEUE_MAX_SIZE`. -/
def queueMaxSize : Nat := 100

/-- `ts_queue_t` without its mutex and condition variables. -/
structure TsQueue (α : Type*) where
  buffer : List α
  head : Nat
  tail : Nat
  count : Nat
  shutdown : Bool
  /-- The array never changes its size. -/
  length_buffer : buffer.length = queueMaxSize

/-- `queue_init`: the array is left as it is. -/
def queueInit (q : TsQueue α) : TsQueue α :=
  { q with head := 0, tail := 0, count := 0, shutdown := false }

/-- The condition variables of the queue. -/
inductive QueueCond where
  | notEmpty
  | notFull
  deriving DecidableEq

/-- The calls, with the pointer to be written. -/
inductive QueueCall (α : Type*) where
  | write (data : α)
  | read
  | shutdown
  deriving DecidableEq

/-- What a call returns: nothing, or for a read the pointer with 1, or 0. -/
inductive QueueReply (α : Type*) where
  | done
  | item (data : α)
  | zero
  deriving DecidableEq

/-- The size of the array does not change with a store. -/
theorem TsQueue.length_set_buffer (q : TsQueue α) (i : Nat) (data : α) :
    (q.buffer.set i data).length = queueMaxSize :=
  List.length_set.trans q.length_buffer

/-- The assignments of `queue_write`. -/
def TsQueue.stored (q : TsQueue α) (data : α) : TsQueue α :=
  { q with
    buffer := q.buffer.set q.tail data
    tail := (q.tail + 1) % queueMaxSize
    count := q.count + 1
    length_buffer := q.length_set_buffer q.tail data }

/-- The assignments of `queue_read`. -/
def TsQueue.advanced (q : TsQueue α) : TsQueue α :=
  { q with head := (q.head + 1) % queueMaxSize, count := q.count - 1 }

/-- `queue_write`, from the test of its loop on. It does not look at `shutdown`. -/
def queueWrite (q : TsQueue α) (data : α) :
    Option (Outcome (TsQueue α) QueueCond (QueueReply α)) :=
  if q.count = queueMaxSize then some .wait
  else if q.tail < queueMaxSize then some (.leave (q.stored data) .done (.one .notEmpty))
  else none -- a store behind the array

/-- `queue_read`, from the test of its loop on. -/
def queueRead (q : TsQueue α) : Option (Outcome (TsQueue α) QueueCond (QueueReply α)) :=
  if q.count = 0 ∧ q.shutdown = false then some .wait
  else if q.count = 0 ∧ q.shutdown = true then some (.leave q .zero .nobody)
  else
    match q.buffer[q.head]? with
    | none => none -- a load behind the array
    | some data => some (.leave q.advanced (.item data) (.one .notFull))

/-- `queue_shutdown`. -/
def queueShutdown (q : TsQueue α) : Option (Outcome (TsQueue α) QueueCond (QueueReply α)) :=
  some (.leave { q with shutdown := true } .done (.every [.notEmpty, .notFull]))

/-- The queue as a monitor. -/
def queueMonitor (α : Type*) : Monitor (QueueCall α) (TsQueue α) QueueCond (QueueReply α) where
  enter
    | .write data, q => queueWrite q data
    | .read, q => queueRead q
    | .shutdown, q => queueShutdown q
  cond
    | .write _ => some .notFull
    | .read => some .notEmpty
    | .shutdown => none

/-- The buffered pointers, from the head on. -/
def TsQueue.items (q : TsQueue α) : List α := ringItems q.buffer q.head q.count

/-- The calls of the queue that have returned, with their replies, latest first. -/
abbrev QueueHistory (α : Type*) := List (QueueCall α × QueueReply α)

/-- The pointers written, in the order of the lock. -/
def written : QueueHistory α → List α
  | [] => []
  | (.write data, _) :: earlier => written earlier ++ [data]
  | (.read, _) :: earlier => written earlier
  | (.shutdown, _) :: earlier => written earlier

/-- The pointers that successful reads have returned, in the order of the lock. -/
def taken : QueueHistory α → List α
  | [] => []
  | (_, .item data) :: earlier => taken earlier ++ [data]
  | (_, .done) :: earlier => taken earlier
  | (_, .zero) :: earlier => taken earlier

/-- Whoever got 0 came after a shutdown and found everything read. -/
def ZeroJustified (earlier : QueueHistory α) (e : QueueCall α × QueueReply α) : Prop :=
  e = (.read, .zero) → (.shutdown, .done) ∈ earlier ∧ taken earlier = written earlier

/-- What one step of the queue relies on and keeps. -/
structure TsQueue.Sound (q : TsQueue α) (history : QueueHistory α) : Prop where
  count_le : q.count ≤ queueMaxSize
  head_lt : q.head < queueMaxSize
  tail_eq : q.tail = (q.head + q.count) % queueMaxSize
  conserved : taken history ++ q.items = written history
  shutdown_iff : q.shutdown = true ↔ (.shutdown, .done) ∈ history
  zero : Grounded ZeroJustified history

theorem queueMaxSize_pos : 0 < queueMaxSize := by decide

variable {q q' : TsQueue α} {history : QueueHistory α} {reply : QueueReply α}
  {k : Notify QueueCond}

theorem TsQueue.Sound.tail_lt (h : q.Sound history) : q.tail < queueMaxSize := by
  rw [h.tail_eq]
  exact Nat.mod_lt _ queueMaxSize_pos

/-- What a write that leaves was. -/
theorem leave_of_queueWrite {data : α} (h : queueWrite q data = some (.leave q' reply k)) :
    q.count ≠ queueMaxSize ∧ q' = q.stored data ∧ reply = .done ∧ k = .one .notEmpty := by
  rw [queueWrite] at h
  split at h
  · cases h
  next hfull =>
    split at h
    · cases h
      exact ⟨hfull, rfl, rfl, rfl⟩
    · cases h

/-- What a read that leaves was: it found the queue empty and shut down, or took a pointer. -/
theorem leave_of_queueRead (h : queueRead q = some (.leave q' reply k)) :
    (q.count = 0 ∧ q.shutdown = true ∧ q' = q ∧ reply = .zero ∧ k = .nobody) ∨
    ∃ data n, q.count = n + 1 ∧ q.buffer[q.head]? = some data ∧ q' = q.advanced ∧
      reply = .item data ∧ k = .one .notFull := by
  rw [queueRead] at h
  split at h
  · cases h
  next hwait =>
    split at h
    next hzero =>
      cases h
      exact .inl ⟨hzero.1, hzero.2, rfl, rfl, rfl⟩
    next hzero =>
      have hpos : q.count ≠ 0 := by
        intro hempty
        cases hshut : q.shutdown with
        | false => exact hwait ⟨hempty, hshut⟩
        | true => exact hzero ⟨hempty, hshut⟩
      obtain ⟨n, hn⟩ := Nat.exists_eq_succ_of_ne_zero hpos
      split at h
      · cases h
      next data hdata =>
        cases h
        exact .inr ⟨data, n, hn, hdata, rfl, rfl, rfl⟩

theorem items_stored (hcount : q.count < queueMaxSize)
    (htail : q.tail = (q.head + q.count) % queueMaxSize) (data : α) :
    (q.stored data).items = q.items ++ [data] := by
  simp only [TsQueue.items, TsQueue.stored]
  rw [htail, ← q.length_buffer]
  exact ringItems_set (by rw [q.length_buffer]; exact hcount) data

theorem items_advanced {data : α} {n : Nat} (hn : q.count = n + 1) (hle : q.count ≤ queueMaxSize)
    (hdata : q.buffer[q.head]? = some data) : q.items = data :: q.advanced.items := by
  simp only [TsQueue.items, TsQueue.advanced]
  rw [hn, ← q.length_buffer]
  exact ringItems_succ (by rw [q.length_buffer]; omega) hdata

theorem TsQueue.Sound.write (h : q.Sound history) {data : α}
    (hs : queueWrite q data = some (.leave q' reply k)) :
    q'.Sound ((.write data, reply) :: history) := by
  obtain ⟨hfull, rfl, rfl, -⟩ := leave_of_queueWrite hs
  have hcount : q.count < queueMaxSize := Nat.lt_of_le_of_ne h.count_le hfull
  refine ⟨hcount, h.head_lt, ?_, ?_, ?_, nofun, h.zero⟩
  · simp only [TsQueue.stored, h.tail_eq, Nat.mod_add_mod, Nat.add_assoc]
  · rw [taken, written, items_stored hcount h.tail_eq, ← h.conserved, List.append_assoc]
  · simpa [TsQueue.stored] using h.shutdown_iff

theorem TsQueue.Sound.read (h : q.Sound history)
    (hs : queueRead q = some (.leave q' reply k)) : q'.Sound ((.read, reply) :: history) := by
  rcases leave_of_queueRead hs with ⟨hzero, hshut, rfl, rfl, -⟩ | ⟨data, n, hn, hdata, rfl, rfl, -⟩
  · have hall : taken history = written history := by
      rw [← h.conserved, TsQueue.items, hzero, ringItems_zero, List.append_nil]
    refine ⟨h.count_le, h.head_lt, h.tail_eq, h.conserved, ?_, ?_⟩
    · simpa using h.shutdown_iff
    · exact ⟨fun _ => ⟨h.shutdown_iff.mp hshut, hall⟩, h.zero⟩
  · have hle := h.count_le
    refine ⟨(Nat.sub_le q.count 1).trans hle, Nat.mod_lt _ queueMaxSize_pos, ?_, ?_, ?_,
      nofun, h.zero⟩
    · simp only [TsQueue.advanced, h.tail_eq, Nat.mod_add_mod, hn]
      congr 1
      omega
    · rw [written, ← h.conserved, items_advanced hn hle hdata, taken, List.append_assoc,
        List.singleton_append]
    · simpa [TsQueue.advanced] using h.shutdown_iff

theorem TsQueue.Sound.shutdown (h : q.Sound history)
    (hs : queueShutdown q = some (.leave q' reply k)) :
    q'.Sound ((.shutdown, reply) :: history) := by
  cases hs
  exact ⟨h.count_le, h.head_lt, h.tail_eq, h.conserved, by simp, nofun, h.zero⟩

theorem sound_queueInit (q : TsQueue α) : (queueInit q).Sound [] where
  count_le := Nat.zero_le _
  head_lt := queueMaxSize_pos
  tail_eq := rfl
  conserved := ringItems_zero q.buffer 0
  shutdown_iff := by simp [queueInit]
  zero := trivial

/-- Every section keeps what the queue relies on. -/
theorem TsQueue.Sound.enter (h : q.Sound history) {call : QueueCall α}
    (hs : (queueMonitor α).enter call q = some (.leave q' reply k)) :
    q'.Sound ((call, reply) :: history) := by
  cases call with
  | write data => exact h.write hs
  | read => exact h.read hs
  | shutdown => exact h.shutdown hs

/-- The indices of a sound queue are inside the array. -/
theorem TsQueue.Sound.enter_ne_none (h : q.Sound history) (call : QueueCall α) :
    (queueMonitor α).enter call q ≠ none := by
  cases call with
  | write data =>
    simp only [queueMonitor, queueWrite, if_pos h.tail_lt]
    split
    · exact Option.some_ne_none _
    · exact Option.some_ne_none _
  | read =>
    have hhead : q.head < q.buffer.length := by
      rw [q.length_buffer]
      exact h.head_lt
    simp only [queueMonitor, queueRead, List.getElem?_eq_getElem hhead]
    split
    · exact Option.some_ne_none _
    · split
      · exact Option.some_ne_none _
      · exact Option.some_ne_none _
  | shutdown => simp [queueMonitor, queueShutdown]

variable [Fintype ι] [DecidableEq ι]

/-- Every state that any interleaving of any number of threads reaches. -/
abbrev QueueReaches (q : TsQueue α)
    (s : MonitorState ι (QueueCall α) (TsQueue α) (QueueReply α)) : Prop :=
  Reaches (queueMonitor α).step (fun _ _ => True) (Monitor.start (queueInit q)) s

theorem sound_of_reaches {s : MonitorState ι (QueueCall α) (TsQueue α) (QueueReply α)}
    (h : QueueReaches q s) : s.shared.Sound s.history :=
  Monitor.shared_invariant (sound_queueInit q) (fun _ _ _ _ _ _ hinv hs => hinv.enter hs) h

/-- No call ever stores or loads behind the array. -/
theorem enter_ne_none_of_reaches
    {s : MonitorState ι (QueueCall α) (TsQueue α) (QueueReply α)} (h : QueueReaches q s)
    (call : QueueCall α) : (queueMonitor α).enter call s.shared ≠ none :=
  (sound_of_reaches h).enter_ne_none call

/-- The queue is a bounded FIFO: the indices stay inside the array, what was read followed by
what is buffered is what was written, and a read returns 0 only after a shutdown and when
everything written so far has been read. -/
theorem bounded_fifo (q : TsQueue α)
    (s : MonitorState ι (QueueCall α) (TsQueue α) (QueueReply α)) (h : QueueReaches q s) :
    s.shared.count ≤ 100 ∧ s.shared.head < 100 ∧ s.shared.tail < 100 ∧
    s.shared.tail = (s.shared.head + s.shared.count) % 100 ∧
    taken s.history ++ s.shared.items = written s.history ∧
    (s.shared.shutdown = true ↔ (.shutdown, .done) ∈ s.history) ∧
    ∀ later earlier, s.history = later ++ (.read, .zero) :: earlier →
      (.shutdown, .done) ∈ earlier ∧ taken earlier = written earlier := by
  have hsound := sound_of_reaches h
  refine ⟨hsound.count_le, hsound.head_lt, hsound.tail_lt, hsound.tail_eq, hsound.conserved,
    hsound.shutdown_iff, ?_⟩
  intro later earlier heq
  have hzero := hsound.zero
  rw [heq] at hzero
  exact hzero.at rfl

/-! ## Runs -/

/-- The queue in static storage. -/
def TsQueue.blank (fill : α) : TsQueue α :=
  ⟨List.replicate queueMaxSize fill, 0, 0, 0, false, List.length_replicate⟩

/-- The worker `true` waits, is woken by the first of two tasks, and reads both and a zero
behind the shutdown. -/
def taskActs : List (MonitorAct Bool (QueueCall Nat)) :=
  [.call true .read none, .call false (.write 7) (some true), .call false (.write 8) none,
    .resume true none, .call false .shutdown none, .call true .read none, .call true .read none]

theorem bounded_fifo_taskActs :
    ∃ s : MonitorState Bool _ _ _, QueueReaches (.blank 0) s ∧
      ∃ earlier, s.history = (.read, .zero) :: earlier ∧ written earlier = [7, 8] ∧
        taken earlier = written earlier := by
  have hrun : (run (guarded (queueMonitor Nat).step fun _ _ => True)
      (Monitor.start (queueInit (.blank 0))) taskActs).map
      (fun s => (s.history.take 1, written s.history.tail)) =
        some ([(.read, .zero)], [7, 8]) := by
    decide +kernel
  obtain ⟨s, hs, hproj⟩ := Option.map_eq_some_iff.mp hrun
  obtain ⟨hfirst, hwritten⟩ := Prod.mk.inj hproj
  have hreach := reaches_of_run hs
  have hhistory : s.history = [] ++ (.read, .zero) :: s.history.tail := by
    rw [List.nil_append, ← List.take_append_drop 1 s.history, hfirst]
    simp
  exact ⟨s, hreach, s.history.tail, hhistory, hwritten,
    ((bounded_fifo _ s hreach).2.2.2.2.2.2 [] _ hhistory).2⟩

end AdMQ
