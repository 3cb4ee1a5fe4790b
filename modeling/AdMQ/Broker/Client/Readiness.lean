import AdMQ.Broker.Client.Buffer
import AdMQ.Core.RecordLayer
import AdMQ.Core.Transition

/-!
# Input and readiness

A task of the worker makes one `SSL_read` of at most 1023 bytes, executes the lines
that are complete and arms the descriptor again. The kernel reports an armed
descriptor only for encrypted bytes in the socket, so whatever the TLS layer has
decrypted beyond the read is stranded until the client sends more. Nothing is ever
stranded exactly if every record fits one read.

Errors and the end of the connection are left out: they do not arm the descriptor.
-/

namespace AdMQ

open Core

/-- `sizeof(temp_buf) - 1`. -/
def readLimit : Nat := 1023

/-- An authenticated connection between the peer and the loop over its lines. -/
structure Endpoint where
  /-- The records that the peer has sent and that have not arrived. -/
  incoming : List (List UInt8)
  tls : RecordLayer UInt8
  armed : Bool
  buffer : ClientBuffer
  /-- What the reads have returned. -/
  chunks : List (List UInt8)
  /-- The lines that were taken out of the buffer. -/
  dispatched : List CStr

namespace Endpoint

/-- The peer sends some records over a new connection. -/
def start (records : List (List UInt8)) : Endpoint where
  incoming := records
  tls := .empty
  armed := true
  buffer := .fresh
  chunks := []
  dispatched := []

/-- A read task. -/
def readTask (e : Endpoint) : Endpoint :=
  match e.tls.read readLimit with
  -- `SSL_ERROR_WANT_READ`
  | (none, tls) => { e with tls := tls, armed := true }
  | (some chunk, tls) =>
    { e with
      tls := tls
      armed := true
      buffer := (receive e.buffer chunk).2
      chunks := e.chunks ++ [chunk]
      dispatched := e.dispatched ++ (receive e.buffer chunk).1 }

/-- What happens at an endpoint. -/
inductive Act where
  /-- A record arrives. -/
  | arrive
  /-- `epoll_wait` reports the descriptor. -/
  | event
  /-- A worker executes the task. -/
  | task

/-- One step. The kernel reports an armed descriptor while its socket holds unread records, and
disarms it. -/
def step (e : Endpoint) : Act → Option Endpoint
  | .arrive =>
    match e.incoming with
    | [] => none
    | record :: rest => some { e with incoming := rest, tls := e.tls.arrive record }
  | .event => if e.armed ∧ e.tls.socket ≠ [] then some { e with armed := false } else none
  | .task => if e.armed then none else some e.readTask

/-- Nothing is stranded: no data are inside the TLS layer, what has arrived and was not read waits
in the socket and raises an event, and the complete lines of what was read were dispatched. -/
structure CaughtUp (records : List (List UInt8)) (e : Endpoint) : Prop where
  pending : e.tls.pending = []
  arrived : records.flatten = e.chunks.flatten ++ e.tls.socket.flatten ++ e.incoming.flatten
  raises : e.tls.socket ≠ [] → (e.step .event).isSome
  dispatched : 0 ∉ e.chunks.flatten → (∀ l ∈ e.chunks.flatten.splitOn newline, l.length ≤ 1023) →
    e.dispatched = completeLines e.chunks.flatten

/-- The states of an endpoint. -/
def Reachable (records : List (List UInt8)) (e : Endpoint) : Prop :=
  Reaches step (fun _ _ => True) (start records) e

/-! ## Invariants -/

/-- What holds for records of any size. -/
structure Consistent (records : List (List UInt8)) (e : Endpoint) : Prop where
  arrived : records.flatten = e.chunks.flatten ++ e.tls.data ++ e.incoming.flatten
  chunks : ∀ chunk ∈ e.chunks, 1 ≤ chunk.length ∧ chunk.length ≤ 1023
  received : receiveAll e.chunks .fresh = (e.dispatched, e.buffer)

variable {records : List (List UInt8)} {e e' : Endpoint}

theorem consistent_start (records : List (List UInt8)) : Consistent records (start records) :=
  ⟨rfl, nofun, rfl⟩

theorem receiveAll_concat (chunks : List (List UInt8)) (chunk : List UInt8) (b : ClientBuffer) :
    receiveAll (chunks ++ [chunk]) b =
      ((receiveAll chunks b).1 ++ (receive (receiveAll chunks b).2 chunk).1,
        (receive (receiveAll chunks b).2 chunk).2) := by
  induction chunks generalizing b with
  | nil => simp [receiveAll]
  | cons first chunks ih =>
    rw [List.cons_append, receiveAll, ih, receiveAll, List.append_assoc]

theorem Consistent.readTask (h : Consistent records e) : Consistent records e.readTask := by
  have hdata := e.tls.data_read readLimit
  have hlength (chunk : List UInt8) (h : (e.tls.read readLimit).1 = some chunk) :=
    e.tls.length_of_read readLimit (by decide) h
  rw [Endpoint.readTask]
  split
  next tls hread =>
    rw [hread] at hdata
    refine ⟨?_, h.chunks, h.received⟩
    rw [h.arrived, ← hdata]
    rfl
  next chunk tls hread =>
    rw [hread] at hdata hlength
    refine ⟨?_, ?_, ?_⟩
    · rw [h.arrived, ← hdata]
      simp
    · intro c hc
      rcases List.mem_append.mp hc with hc | hc
      · exact h.chunks c hc
      · rw [List.mem_singleton.mp hc]
        exact hlength chunk rfl
    · simp only [receiveAll_concat, h.received]

theorem Consistent.step (h : Consistent records e) {a : Act} (hs : e.step a = some e') :
    Consistent records e' := by
  cases a with
  | arrive =>
    simp only [Endpoint.step] at hs
    split at hs
    · cases hs
    next record rest hincoming =>
      obtain rfl := Option.some.inj hs
      refine ⟨?_, h.chunks, h.received⟩
      rw [h.arrived, hincoming, RecordLayer.data_arrive]
      simp
  | event =>
    obtain ⟨-, hs⟩ := Option.ite_none_right_eq_some.mp hs
    obtain rfl := Option.some.inj hs
    exact ⟨h.arrived, h.chunks, h.received⟩
  | task =>
    simp only [Endpoint.step] at hs
    split at hs
    · cases hs
    · obtain rfl := Option.some.inj hs
      exact h.readTask

/-- Records that fit a read never leave anything inside the TLS layer. -/
structure Fits (e : Endpoint) : Prop where
  incoming : ∀ record ∈ e.incoming, record.length ≤ readLimit
  socket : ∀ record ∈ e.tls.socket, record.length ≤ readLimit
  pending : e.tls.pending = []

theorem Fits.step (h : Fits e) {a : Act} (hs : e.step a = some e') : Fits e' := by
  cases a with
  | arrive =>
    simp only [Endpoint.step] at hs
    split at hs
    · cases hs
    next record rest hincoming =>
      obtain rfl := Option.some.inj hs
      have hin := h.incoming
      rw [hincoming, List.forall_mem_cons] at hin
      refine ⟨hin.2, ?_, h.pending⟩
      intro r hr
      rcases List.mem_append.mp hr with hr | hr
      · exact h.socket r hr
      · rw [List.mem_singleton.mp hr]
        exact hin.1
  | event =>
    obtain ⟨-, hs⟩ := Option.ite_none_right_eq_some.mp hs
    obtain rfl := Option.some.inj hs
    exact ⟨h.incoming, h.socket, h.pending⟩
  | task =>
    simp only [Endpoint.step] at hs
    split at hs
    · cases hs
    · obtain rfl := Option.some.inj hs
      have hsocket := e.tls.socket_read_subset readLimit
      have hpending := RecordLayer.pending_read h.pending h.socket
      rw [readTask]
      split
      all_goals
        next hread =>
          rw [hread] at hsocket hpending
          exact ⟨h.incoming, fun r hr => h.socket r (hsocket hr), hpending⟩

theorem caughtUp_of_fits (h : Consistent records e) (hfits : Fits e) (harmed : e.armed = true) :
    CaughtUp records e := by
  refine ⟨hfits.pending, ?_, ?_, ?_⟩
  · rw [h.arrived, RecordLayer.data, hfits.pending, List.nil_append]
  · intro hsocket
    rw [Endpoint.step, if_pos ⟨harmed, hsocket⟩]
    rfl
  · intro hnul hlines
    obtain ⟨hreceived, -⟩ := receiveAll_chunks .fresh rfl _ hnul hlines e.chunks rfl h.chunks
    rw [h.received] at hreceived
    exact hreceived

/-! ## A record that does not fit -/

/-- A record arrives, is reported, and one read is made of it. -/
theorem Reachable.round (h : Reachable records e) (harmed : e.armed = true) (htls : e.tls = .empty)
    {record : List UInt8} {rest : List (List UInt8)} (hincoming : e.incoming = record :: rest) :
    ∃ e', Reachable records e' ∧ e'.incoming = rest ∧ e'.armed = true ∧
      e'.tls = ((⟨[record], []⟩ : RecordLayer UInt8).read readLimit).2 := by
  have harrive : e.step .arrive = some { e with incoming := rest, tls := ⟨[record], []⟩ } := by
    simp only [Endpoint.step, hincoming, htls]
    rfl
  have hevent : Endpoint.step { e with incoming := rest, tls := ⟨[record], []⟩ } .event =
      some { e with incoming := rest, tls := ⟨[record], []⟩, armed := false } :=
    if_pos ⟨harmed, List.cons_ne_nil _ _⟩
  refine ⟨_, ((h.next trivial harrive).next trivial hevent).next (a := .task) trivial rfl, ?_⟩
  rw [readTask]
  split
  all_goals
    next hread =>
      rw [hread]
      exact ⟨rfl, rfl, rfl⟩

/-- Records that fit are read one after the other, each by a task of its own. -/
theorem exists_reachable (front rest : List (List UInt8))
    (hfit : ∀ record ∈ front, record.length ≤ readLimit) :
    ∃ e, Reachable (front ++ rest) e ∧ e.incoming = rest ∧ e.tls = .empty ∧ e.armed = true := by
  induction front using List.reverseRecOn generalizing rest with
  | nil => exact ⟨start rest, .start, rfl, rfl, rfl⟩
  | append_singleton front record ih =>
    rw [List.append_assoc]
    obtain ⟨e, hreach, hincoming, htls, harmed⟩ :=
      ih (record :: rest) fun r hr => hfit r (List.mem_append_left _ hr)
    obtain ⟨e', hreach', hincoming', harmed', htls'⟩ := hreach.round harmed htls hincoming
    refine ⟨e', hreach', hincoming', ?_, harmed'⟩
    rw [htls']
    exact RecordLayer.read_single_of_le (hfit record (List.mem_append_right _ List.mem_cons_self))

/-- The first record that does not fit is stranded in part. -/
theorem exists_stranded {record : List UInt8} (hmem : record ∈ records)
    (hlong : readLimit < record.length) :
    ∃ e, Reachable records e ∧ e.armed = true ∧ e.tls.pending ≠ [] := by
  obtain ⟨front, long, rest, rfl, hfront, hlong⟩ :
      ∃ front long rest, records = front ++ long :: rest ∧
        (∀ r ∈ front, r.length ≤ readLimit) ∧ readLimit < long.length := by
    have hsome : (records.find? fun r => readLimit < r.length).isSome := by
      rw [List.find?_isSome]
      exact ⟨record, hmem, decide_eq_true hlong⟩
    obtain ⟨long, hfind⟩ := Option.isSome_iff_exists.mp hsome
    obtain ⟨hp, front, rest, hsplit, hfront⟩ := List.find?_eq_some_iff_append.mp hfind
    exact ⟨front, long, rest, hsplit, fun r hr => by simpa using hfront r hr,
      of_decide_eq_true hp⟩
  obtain ⟨e, hreach, hincoming, htls, harmed⟩ := exists_reachable front (long :: rest) hfront
  obtain ⟨e', hreach', -, harmed', htls'⟩ := hreach.round harmed htls hincoming
  refine ⟨e', hreach', harmed', ?_⟩
  rw [htls', RecordLayer.read_single hlong]
  intro hnil
  exact absurd (List.drop_eq_nil_iff.mp hnil) (Nat.not_le.mpr hlong)

/-- No stranded input: whenever the descriptor of a connection is armed, nothing is stranded,
exactly if every record of the peer fits one read. -/
theorem no_stranded_input_iff (records : List (List UInt8)) :
    (∀ e, Reachable records e → e.armed = true → CaughtUp records e) ↔
      ∀ record ∈ records, record.length ≤ readLimit := by
  constructor
  · intro h record hmem
    by_contra hlong
    obtain ⟨e, hreach, harmed, hpending⟩ := exists_stranded hmem (Nat.not_le.mp hlong)
    exact hpending (h e hreach harmed).pending
  · intro hfit e hreach harmed
    have hstart : Fits (start records) := ⟨hfit, nofun, rfl⟩
    refine caughtUp_of_fits ?_ ?_ harmed
    · exact hreach.invariant (consistent_start records) fun _ _ _ h _ hs => h.step hs
    · exact hreach.invariant hstart fun _ _ _ h _ hs => h.step hs

/-- A record of two lines, of which the first fills a read. -/
def twoLines : List UInt8 := List.replicate 1022 (byte 'a') ++ ascii "\nPING\n"

/-- The second line has arrived and was decrypted, and nothing will ever happen to it. -/
theorem stranded_twoLines :
    ∃ e, Reachable [twoLines] e ∧ e.armed = true ∧ e.tls = ⟨[], ascii "PING\n"⟩ ∧
      e.dispatched = [List.replicate 1022 (byte 'a')] ∧ ∀ a, e.step a = none := by
  have hrun : (run (guarded step fun _ _ => True) (start [twoLines]) [.arrive, .event, .task]).map
      (fun e => (e.armed, e.tls, e.dispatched, e.incoming)) =
      some (true, ⟨[], ascii "PING\n"⟩, [List.replicate 1022 (byte 'a')], []) := by
    decide +kernel
  obtain ⟨e, he, hproj⟩ := Option.map_eq_some_iff.mp hrun
  obtain ⟨harmed, hproj⟩ := Prod.mk.inj hproj
  obtain ⟨htls, hproj⟩ := Prod.mk.inj hproj
  obtain ⟨hdispatched, hincoming⟩ := Prod.mk.inj hproj
  refine ⟨e, reaches_of_run he, harmed, htls, hdispatched, fun a => ?_⟩
  cases a with
  | arrive => simp only [step, hincoming]
  | event => simp [step, htls]
  | task => simp [step, harmed]

end Endpoint

end AdMQ
