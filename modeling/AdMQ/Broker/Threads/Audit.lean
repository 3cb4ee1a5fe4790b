import AdMQ.Broker.Threads.Monitor

/-!
# The audit log

`worker_thread` writes a publication to the audit log before it calls
`pubsub_publish`; the handler of the operator's `PUBLISH` does not. In every
interleaving whose publications of the operator are on record anyway, or meet no
subscriber, whatever is delivered is on record before its delivery.
-/

namespace AdMQ

open Core

/-- `audit_log` has a row with this topic and message. -/
def Recorded (auditLog : List (CStr × CStr × CStr)) (topic message : CStr) : Prop :=
  ∃ row ∈ auditLog, row.2 = (topic, message)

instance (auditLog : List (CStr × CStr × CStr)) (topic message : CStr) :
    Decidable (Recorded auditLog topic message) :=
  inferInstanceAs (Decidable (∃ row ∈ auditLog, row.2 = (topic, message)))

/-- The step writes a message of a topic to a subscriber. -/
def Sys.Delivers (s : Sys) (a : Act) (topic message : CStr) : Prop :=
  ∃ r origin fd rest c s', s.pc a.thread = .publishing r origin topic message (fd :: rest) ∧
    s.step a = some s' ∧
    s'.log = .delivered origin c topic (formattedMsg topic message) :: s.log

/-- The topic and the message of a publication of the operator that is about to begin. -/
def Pc.operatorPublish : Pc → Option (CStr × CStr)
  | .publish none _ topic message => some (topic, message)
  | _ => none

/-- The operator publishes only what is on record, or where nobody is subscribed. -/
def Sys.OperatorRecorded (s : Sys) (a : Act) : Prop :=
  ∀ p ∈ (s.pc a.thread).operatorPublish,
    s.subscribers p.1 = [] ∨ Recorded s.db.auditLog p.1 p.2

/-- What is known at the points of a publication. -/
def Pc.Audited (auditLog : List (CStr × CStr × CStr)) : Pc → Prop
  | .publish (some _) _ topic message => Recorded auditLog topic message
  | .publishing _ _ topic message rest => rest = [] ∨ Recorded auditLog topic message
  | _ => True

variable {s : Sys}

/-- Rows are never removed. -/
theorem auditLog_apply (s : Sys) (e : Effect) : s.db.auditLog ⊆ (s.apply e).db.auditLog := by
  cases e with
  | logMessage sender topic message => exact List.subset_append_left _ _
  | _ => exact List.Subset.refl _

theorem auditLog_applyAll (s : Sys) (effects : List Effect) :
    s.db.auditLog ⊆ (s.applyAll effects).db.auditLog :=
  Sys.applyAll_induction (P := fun s' => s.db.auditLog ⊆ s'.db.auditLog)
    (fun s' e _ h => List.Subset.trans h (auditLog_apply s' e)) (List.Subset.refl _)

theorem Recorded.mono {log log' : List (CStr × CStr × CStr)} {topic message : CStr}
    (h : Recorded log topic message) (hsub : log ⊆ log') : Recorded log' topic message := by
  obtain ⟨row, hrow, heq⟩ := h
  exact ⟨row, hsub hrow, heq⟩

theorem Pc.Audited.mono {log log' : List (CStr × CStr × CStr)} {p : Pc} (h : p.Audited log)
    (hsub : log ⊆ log') : p.Audited log' := by
  cases p with
  | publish r origin topic message =>
    cases r with
    | none => trivial
    | some r => exact Recorded.mono h hsub
  | publishing r origin topic message rest => exact Or.imp_right (Recorded.mono · hsub) h
  | _ => trivial

/-- The point that a step leads to. -/
theorem audited_of_move {t : Thread} {input : Input} {effects : List Effect} {next : Pc}
    (hmove : Move s t input effects next) (hpc : (s.pc t).Audited s.db.auditLog)
    (hok : s.OperatorRecorded ⟨t, input⟩) : next.Audited (s.applyAll effects).db.auditLog := by
  cases hmove with
  | @linePublish r c buffer topic payload hpc hline hcan =>
    exact ⟨((s.client c).hostname, topic, payload), List.mem_append_right _ (by simp), rfl⟩
  | @publish r origin topic message hat hfree =>
    cases r with
    | none => exact hok (topic, message) (by simp [hat, Pc.operatorPublish])
    | some r =>
      rw [hat] at hpc
      exact .inr hpc
  | skip hat =>
    rw [hat] at hpc
    exact .inr (hpc.resolve_left (List.cons_ne_nil _ _))
  | deliver hat hget hfree =>
    rw [hat] at hpc
    exact .inr (hpc.resolve_left (List.cons_ne_nil _ _))
  | _ => trivial

/-- The invariant: every publication under way is on record or has no subscriber left. -/
def Sys.Audited (s : Sys) : Prop := ∀ t, (s.pc t).Audited s.db.auditLog

theorem Sys.Audited.step (h : s.Audited) {s' : Sys} {a : Act} (hok : s.OperatorRecorded a)
    (hs : s.step a = some s') : s'.Audited := by
  obtain ⟨effects, next, hmove, rfl⟩ := Sys.exists_move_of_step hs
  refine Sys.forall_pc_goto (P := fun _ p => p.Audited (s.applyAll effects).db.auditLog)
    (Sys.pc_applyAll s effects) (audited_of_move hmove (h a.thread) hok) ?_
  intro u _
  exact (h u).mono (auditLog_applyAll s effects)

theorem audited_of_reaches {policy : Policy} {db : Database}
    (h : Reaches Sys.step Sys.OperatorRecorded (.init policy db) s) : s.Audited :=
  h.invariant (fun _ => trivial) fun _ _ _ hinv hok hs => hinv.step hok hs

/-- In every run in which the operator publishes only what is on record or where nobody is
subscribed, every message is on record before it is delivered. -/
theorem deliveries_are_recorded (policy : Policy) (db : Database) (s : Sys)
    (h : Reaches Sys.step Sys.OperatorRecorded (.init policy db) s) :
    ∀ a topic message, s.Delivers a topic message → Recorded s.db.auditLog topic message := by
  rintro a topic message ⟨r, origin, fd, rest, c, s', hpc, -, -⟩
  have haudited := audited_of_reaches h a.thread
  rw [hpc] at haudited
  exact haudited.resolve_left (List.cons_ne_nil _ _)

/-! ## Runs -/

instance (s : Sys) (a : Act) : Decidable (s.OperatorRecorded a) :=
  inferInstanceAs (Decidable (∀ p ∈ (s.pc a.thread).operatorPublish, _ ∨ _))

/-- Whether the step writes the message to a connection, on behalf of somebody. -/
def Sys.writes (s : Sys) (a : Act) (origin : Origin) (c : ConnId) (topic message : CStr) : Bool :=
  (s.step a).any fun s' =>
    s'.log == .delivered origin c topic (formattedMsg topic message) :: s.log

theorem Sys.delivers_of_writes {a : Act} {origin : Origin} {c : ConnId} {topic message : CStr}
    {r : Option Ref} {fd : Int} {rest : List Int}
    (hpc : s.pc a.thread = .publishing r origin topic message (fd :: rest))
    (h : s.writes a origin c topic message = true) : s.Delivers a topic message := by
  obtain ⟨s', hs, hlog⟩ := (Option.any_eq_true ..).mp h
  exact ⟨r, origin, fd, rest, c, s', hpc, hs, by simpa using hlog⟩

/-- Everybody may subscribe and publish. -/
def openPolicy : Policy := loadPolicy (ascii "[role:DEFAULT]\nSUBSCRIBE = *\nPUBLISH = *\n")

/-- A client subscribes to a topic and publishes on it; the delivery comes next. -/
def ownNewsActs : List Act :=
  acceptActs 5 ++ handshakeActs 5 (ascii "pump") ++ eventActs 5 ++
    ⟨.worker 0, .data (ascii "SUBSCRIBE news\n")⟩ :: Thread.going (.worker 0) 3 ++ eventActs 5 ++
    ⟨.worker 0, .data (ascii "PUBLISH news hi\n")⟩ :: Thread.going (.worker 0) 2

theorem deliveries_are_recorded_ownNewsActs :
    ∃ s, Reaches Sys.step Sys.OperatorRecorded (.init openPolicy .empty) s ∧
      s.Delivers ⟨.worker 0, .go⟩ (ascii "news") (ascii "hi") ∧
      Recorded s.db.auditLog (ascii "news") (ascii "hi") := by
  have hrun : (run (guarded Sys.step Sys.OperatorRecorded) (.init openPolicy .empty)
      ownNewsActs).map (fun s => (s.pc (.worker 0), s.writes ⟨.worker 0, .go⟩
        (.client 0 .success (ascii "pump")) 0 (ascii "news") (ascii "hi"))) =
      some (.publishing (some ⟨5, 0⟩) (.client 0 .success (ascii "pump")) (ascii "news")
        (ascii "hi") [5], true) := by
    decide +kernel
  obtain ⟨s, hs, hproj⟩ := Option.map_eq_some_iff.mp hrun
  obtain ⟨hpc, hwrites⟩ := Prod.mk.inj hproj
  have hreach := reaches_of_run hs
  have hdelivers := Sys.delivers_of_writes hpc hwrites
  exact ⟨s, hreach, hdelivers, deliveries_are_recorded _ _ s hreach _ _ _ hdelivers⟩

/-- The operator subscribes a client and publishes; the delivery comes next. -/
def operatorNewsActs : List Act :=
  acceptActs 5 ++ handshakeActs 5 (ascii "pump") ++
    [⟨.cli, .command (.subscribe (ascii "pump") (ascii "news"))⟩, ⟨.cli, .go⟩,
      ⟨.cli, .command (.publish (ascii "news") (ascii "hi"))⟩, ⟨.cli, .go⟩]

/-- What the operator publishes is delivered without a record, also in a run in which one
thread acts at a time. -/
theorem unrecorded_delivery_operatorNewsActs :
    ∃ s, Reaches Sys.step Sys.Serial (.init .none .empty) s ∧
      s.Delivers ⟨.cli, .go⟩ (ascii "news") (ascii "hi") ∧ s.db.auditLog = [] := by
  have hrun : (run (guarded Sys.step Sys.Serial) (.init .none .empty) operatorNewsActs).map
      (fun s => (s.pc .cli, s.writes ⟨.cli, .go⟩ .cli 0 (ascii "news") (ascii "hi"),
        s.db.auditLog.length)) =
      some (.publishing none .cli (ascii "news") (ascii "hi") [5], true, 0) := by
    decide +kernel
  obtain ⟨s, hs, hproj⟩ := Option.map_eq_some_iff.mp hrun
  obtain ⟨hpc, hproj⟩ := Prod.mk.inj hproj
  obtain ⟨hwrites, hlog⟩ := Prod.mk.inj hproj
  exact ⟨s, reaches_of_run hs, Sys.delivers_of_writes hpc hwrites,
    List.length_eq_zero_iff.mp hlog⟩

end AdMQ
