import AdMQ.Fleet.Rest

/-!
# Orders and reports on their way

Two things are followed through the fleet. The orders of the operator reach the agents
of a group whole and in order, and nothing else makes an agent act: neither the replies
of the broker nor the reports of other agents. The reports of an agent reach the audit
log in the order in which it acted, if its role may publish them.
-/

namespace AdMQ

open Core

/-! ## Orders -/

namespace Node

/-- What the agent has acted on and what it is going to act on were ordered. -/
def Obedient (n : Node) : Prop := n.acted.map Prod.fst ++ n.heeded n.inbox = n.ordered

variable {n : Node}

theorem heeded_append (xs ys : List CStr) : n.heeded (xs ++ ys) = n.heeded xs ++ n.heeded ys :=
  List.filter_append ..

theorem heeded_eq_nil {xs : List CStr} (h : ∀ x ∈ xs, ¬ n.Heeds x) : n.heeded xs = [] := by
  rw [heeded, List.filter_eq_nil_iff]
  intro x hx
  simpa using h x hx

/-- Texts that the agent does not heed are of no influence. -/
theorem Obedient.deliver (h : n.Obedient) {writes : List (Int × CStr)}
    (hwrites : ∀ w ∈ writes, ¬ n.Heeds w.2) : (n.deliver writes).Obedient := by
  have htexts : n.heeded (textsFor n.sender.fd writes) = [] := by
    refine heeded_eq_nil ?_
    intro text htext
    obtain ⟨w, hw, rfl⟩ := List.mem_map.mp htext
    exact hwrites w (List.mem_of_mem_filter hw)
  change n.acted.map Prod.fst ++ n.heeded (n.inbox ++ textsFor n.sender.fd writes) = n.ordered
  rw [heeded_append, htexts, List.append_nil]
  exact h

theorem Obedient.order (h : n.Obedient) (writes : List (Int × CStr)) :
    (n.order writes).Obedient := by
  change n.acted.map Prod.fst ++ n.heeded (n.inbox ++ textsFor n.sender.fd writes) =
    n.ordered ++ n.heeded (textsFor n.sender.fd writes)
  rw [heeded_append, ← List.append_assoc, h]

theorem Obedient.handled (h : n.Obedient) {record : CStr} {rest : List CStr}
    (hin : n.inbox = record :: rest) (stack : CStr) (forked : Forked) :
    (n.handled stack forked record rest).Obedient := by
  rw [Obedient, hin] at h
  change (n.acted ++ if n.Heeds record then [(record, _)] else []).map Prod.fst ++ n.heeded rest =
    n.ordered
  rw [← h, heeded, heeded]
  by_cases hheeds : n.Heeds record
  · rw [if_pos hheeds, List.map_append, List.append_assoc,
      List.filter_cons_of_pos (by simpa using hheeds)]
    rfl
  · rw [if_neg hheeds, List.append_nil, List.filter_cons_of_neg (by simpa using hheeds)]

end Node

namespace Fleet

variable {f f' : Fleet}

theorem Move.obedient {n n' : Node} (h : Move f f' n n') (ho : f.Orderly) (hn : n ∈ f.nodes)
    (hquiet : n.station.commandGroup ≠ statusTopic) (hobeys : n.Obedient) : n'.Obedient := by
  cases h with
  | kept | pinged => exact hobeys
  | ordered => exact hobeys.order _
  | delivered hm hout =>
    exact hobeys.deliver (((ho.nodes _ hm).writes_serving hout f).2 n hquiet)
  | @served record rest hout =>
    have hinert := ((ho.nodes n hn).writes_serving hout f).2 n hquiet
    have hserved : (n.served (receive n.buffer record).2 rest).Obedient := hobeys
    exact hserved.deliver hinert
  | handled hin => exact hobeys.handled hin ..

/-- What runs of quiet fleets keep. -/
structure Follows (f : Fleet) : Prop where
  orderly : f.Orderly
  quiet : f.Quiet
  obedient : ∀ n ∈ f.nodes, n.Obedient

theorem Follows.step (h : f.Follows) {a : FleetAct} (ha : a.Quiet) (hs : f.step a = some f') :
    f'.Follows := by
  refine ⟨h.orderly.step hs, h.quiet.step h.orderly ha hs, ?_⟩
  intro n' hn'
  obtain ⟨sender, station, buffer, -, -, rfl⟩ | ⟨n, hn, hmove⟩ :=
    exists_move h.orderly.nodup hs hn'
  · rfl
  · exact hmove.obedient h.orderly hn (h.quiet n hn) (h.obedient n hn)

end Fleet

/-- In every run of a fleet without agents of the group `agent-status`: the messages that an agent
has acted on, followed by those in its inbox that it will act on, are the operator's publications
to its group while it was connected and subscribed, each once and in their order. When nothing is
on its way, it has acted on all of them. -/
theorem orders_are_followed (b : Tables) (acts : List FleetAct) (f : Fleet)
    (hquiet : ∀ a ∈ acts, a.Quiet) (hrun : run Fleet.step (.start b) acts = some f) (n : Node)
    (hn : n ∈ f.nodes) :
    n.acted.map Prod.fst ++ n.heeded n.inbox = n.ordered ∧
      (f.AtRest → n.acted.map Prod.fst = n.ordered) := by
  have hstart : (Fleet.start b).Follows :=
    ⟨Fleet.orderly_start b, List.forall_mem_nil _, List.forall_mem_nil _⟩
  have hobeys := (run_invariant (fun h => h.step) hstart hquiet hrun).obedient n hn
  refine ⟨hobeys, fun hrest => ?_⟩
  rwa [Node.Obedient, (hrest n hn).1, Node.heeded, List.filter_nil, List.append_nil] at hobeys

/-- The agent of `orderedTables` is subscribed to its group. -/
def orderedTables : Tables :=
  ⟨openPolicy, pubsubSubscribe (pubsubInit .static) 5 (ascii "CMD-GRP-1"), .empty⟩

/-- Two orders, of which the agent has handled one; its report is served. -/
def followedActs : List FleetAct :=
  [.join deskSender bareStation .fresh, .order (ascii "CMD-GRP-1") (ascii "restart web"),
    .order (ascii "CMD-GRP-1") (ascii "stop web"), .handle 5 [] notForked, .serve 5, .serve 5,
    .serve 5]

theorem orders_are_followed_twice :
    ∃ f, run Fleet.step (.start orderedTables) followedActs = some f ∧
      ∀ n ∈ f.nodes, n.acted.map Prod.fst ++ n.heeded n.inbox = n.ordered := by
  have hgroup : bareStation.commandGroup ≠ statusTopic := by decide
  have hquiet : ∀ a ∈ followedActs, a.Quiet := by
    simp only [followedActs, List.forall_mem_cons]
    exact ⟨hgroup, trivial, trivial, trivial, trivial, trivial, trivial, List.forall_mem_nil _⟩
  have hrun : (run Fleet.step (.start orderedTables) followedActs).isSome = true := by
    decide +kernel
  obtain ⟨f, hf⟩ := Option.isSome_iff_exists.mp hrun
  exact ⟨f, hf, fun n hn => (orders_are_followed orderedTables followedActs f hquiet hf n hn).1⟩

/-! ## Reports -/

/-- Reports among the records of an agent. -/
def isReport (record : CStr) : Bool := record.take 8 == ascii "PUBLISH "

namespace Node

/-- The reports that the agent has written. -/
def reports (n : Node) : List CStr := n.acted.filterMap fun done => done.2.report

/-- Those that the broker has not read. -/
def waiting (n : Node) : List CStr := n.outbox.filter isReport

/-- The rows that reports of the agent make. -/
def rows (n : Node) (texts : List CStr) : List (CStr × CStr × CStr) :=
  texts.map fun text => (n.sender.hostname, statusTopic, text)

/-- The reports that were read are in the log. -/
def Filed (b : Tables) (n : Node) : Prop :=
  ∃ texts, n.reports = texts.map statusRecord ++ n.waiting ∧
    (rbacCanPublish b.policy n.sender.hostname statusTopic = true →
      (n.rows texts).Sublist b.db.auditLog)

end Node

/-- Of the records of an agent the reports are told apart by their first word. -/
theorem Station.Writes.eq_of_isReport {st : Station} {record : CStr} (h : st.Writes record)
    (hreport : isReport record = true) : ∃ payload, IsStatus payload ∧
      record = statusRecord payload := by
  cases h with
  | subscribe => cases hreport
  | broadcast => cases hreport
  | ping => cases hreport
  | report hstatus => exact ⟨_, hstatus, rfl⟩

/-- The log only grows. -/
theorem Tables.auditLog_execute (b : Tables) (sender : Sender) (cmd : Command) :
    b.db.auditLog.Sublist (b.execute sender cmd).tables.db.auditLog := by
  have hlogged (db : Database) (h t m : CStr) :
      db.auditLog.Sublist (db.logMessage h t m).auditLog :=
    List.sublist_append_left ..
  cases cmd with
  | get => exact hlogged ..
  | subscribe | publish =>
    rw [execute]
    split
    · exact hlogged ..
    · exact List.Sublist.refl _
  | set | unsubscribe =>
    rw [execute]
    split <;> exact List.Sublist.refl _
  | ping | pong | invalid => exact List.Sublist.refl _

namespace Node

variable {n : Node} {b b' : Tables}

/-- A log that has grown still holds the reports. -/
theorem Filed.mono (h : n.Filed b) (hpolicy : b'.policy = b.policy)
    (hlog : b.db.auditLog.Sublist b'.db.auditLog) : n.Filed b' := by
  obtain ⟨texts, hreports, hrows⟩ := h
  refine ⟨texts, hreports, fun hcan => ?_⟩
  rw [hpolicy] at hcan
  exact (hrows hcan).trans hlog

/-- A message adds the report to what was written and to what is waiting. -/
theorem Filed.handled (h : n.Filed b) (stack : CStr) (forked : Forked) (record : CStr)
    (rest : List CStr) : (n.handled stack forked record rest).Filed b := by
  obtain ⟨texts, hreports, hrows⟩ := h
  refine ⟨texts, ?_, hrows⟩
  have hwritten : (n.handled stack forked record rest).reports =
      n.reports ++ (n.station.handle stack forked record).report.toList := by
    change (n.acted ++ if n.Heeds record then [(record, _)] else []).filterMap _ = _
    rw [List.filterMap_append]
    refine congrArg (n.reports ++ ·) ?_
    by_cases hheeds : n.Heeds record
    · rw [if_pos hheeds]
      cases hreport : (n.station.handle stack forked record).report <;> simp [hreport]
    · have hnothing : n.station.handle stack forked record = .nothing := if_neg hheeds
      rw [if_neg hheeds, hnothing]
      rfl
  have hall : (n.station.handle stack forked record).report.toList.filter isReport =
      (n.station.handle stack forked record).report.toList := by
    rw [List.filter_eq_self]
    have hanswer := n.station.answer_handle stack forked record
    revert hanswer
    generalize n.station.handle stack forked record = done
    intro hanswer
    cases hanswer with
    | silent => exact List.forall_mem_nil _
    | started | unknown => exact List.forall_mem_singleton.mpr rfl
  rw [hwritten, hreports, List.append_assoc]
  refine congrArg (texts.map statusRecord ++ ·) ?_
  change _ = (n.outbox ++ _).filter isReport
  rw [List.filter_append, hall]
  rfl

end Node

namespace Fleet

variable {f f' : Fleet}

theorem serving_grows {m : Node} (hm : m.Orderly) {record : CStr} {rest : List CStr}
    (hout : m.outbox = record :: rest) : (f.serving m record).1.policy = f.tables.policy ∧
      f.tables.db.auditLog.Sublist (f.serving m record).1.db.auditLog := by
  obtain ⟨line, cmd, -, -, -, -, hserving⟩ := hm.serving hout f
  rw [hserving]
  exact ⟨f.tables.policy_execute m.sender cmd, f.tables.auditLog_execute m.sender cmd⟩

theorem Move.filed {n n' : Node} (h : Move f f' n n') (ho : f.Orderly) (hn : n ∈ f.nodes)
    (hfiled : n.Filed f.tables) : n'.Filed f'.tables := by
  cases h with
  | kept hdb hpolicy => exact hfiled.mono hpolicy (by rw [hdb])
  | ordered htables =>
    rw [htables]
    exact hfiled
  | pinged htables =>
    rw [htables]
    obtain ⟨texts, hreports, hrows⟩ := hfiled
    refine ⟨texts, hreports.trans ?_, hrows⟩
    change _ ++ n.outbox.filter isReport = _ ++ (n.outbox ++ [pingRecord]).filter isReport
    rw [List.filter_append]
    simp [isReport, show (pingRecord.take 8 == ascii "PUBLISH ") = false from rfl]
  | delivered hm hout htables =>
    obtain ⟨hpolicy, hlog⟩ := serving_grows (f := f) (ho.nodes _ hm) hout
    rw [htables]
    exact hfiled.mono hpolicy hlog
  | @served record rest hout htables =>
    obtain ⟨hpolicy, hlog⟩ := serving_grows (f := f) (ho.nodes n hn) hout
    obtain ⟨texts, hreports, hrows⟩ := hfiled
    rw [htables]
    by_cases hreport : isReport record = true
    · obtain ⟨payload, hstatus, rfl⟩ := ((ho.nodes n hn).writes record
        (by rw [hout]; exact List.mem_cons_self)).eq_of_isReport hreport
      refine ⟨texts ++ [payload], ?_, ?_⟩
      · rw [Node.waiting, hout, List.filter_cons_of_pos hreport] at hreports
        refine hreports.trans ?_
        rw [List.map_append, List.append_assoc]
        rfl
      · intro hcan
        rw [hpolicy] at hcan
        have hcan' : rbacCanPublish f.tables.policy n.sender.hostname statusTopic = true := hcan
        have hserved := (hstatus.commandLine.serveWrites f.tables n.sender (ho.nodes n hn).empty).2
        rw [← statusRecord, ← serving, Tables.execute, if_pos hcan'] at hserved
        have hgrown : (f.serving n (statusRecord payload)).1.db.auditLog =
            f.tables.db.auditLog ++ [(n.sender.hostname, statusTopic, payload)] :=
          congrArg (fun done => done.1.db.auditLog) hserved
        have hrow : n.rows (texts ++ [payload]) =
            n.rows texts ++ [(n.sender.hostname, statusTopic, payload)] := List.map_append
        rw [hgrown]
        exact hrow ▸ (hrows hcan').append (List.Sublist.refl _)
    · refine ⟨texts, ?_, fun hcan => ?_⟩
      · rw [Node.waiting, hout, List.filter_cons_of_neg hreport] at hreports
        exact hreports
      · rw [hpolicy] at hcan
        exact (hrows hcan).trans hlog
  | handled hin htables =>
    rw [htables]
    exact hfiled.handled ..

/-- No step changes the policy. -/
theorem policy_step (ho : f.Orderly) {a : FleetAct} (hs : f.step a = some f') :
    f'.tables.policy = f.tables.policy := by
  cases a with
  | join | leave | ping =>
    rw [step] at hs
    split at hs
    · obtain rfl := Option.some.inj hs
      rfl
    · cases hs
  | order =>
    obtain rfl := Option.some.inj hs
    rfl
  | serve fd =>
    obtain ⟨front, n, back, record, rest, hat, -, hout, rfl⟩ := exists_of_serve ho.nodup hs
    exact (serving_grows (ho.nodes n hat.mem) hout).1
  | handle fd stack forked =>
    obtain ⟨front, n, back, record, rest, -, -, -, rfl⟩ := exists_of_handle ho.nodup hs
    rfl

/-- What every run keeps. -/
structure Files (policy : Policy) (f : Fleet) : Prop where
  orderly : f.Orderly
  policy_eq : f.tables.policy = policy
  filed : ∀ n ∈ f.nodes, n.Filed f.tables

theorem Files.step {policy : Policy} (h : f.Files policy) {a : FleetAct}
    (hs : f.step a = some f') : f'.Files policy := by
  refine ⟨h.orderly.step hs, (policy_step h.orderly hs).trans h.policy_eq, ?_⟩
  intro n' hn'
  obtain ⟨sender, station, buffer, -, -, rfl⟩ | ⟨n, hn, hmove⟩ :=
    exists_move h.orderly.nodup hs hn'
  · exact ⟨[], rfl, fun _ => List.nil_sublist _⟩
  · exact hmove.filed h.orderly hn (h.filed n hn)

end Fleet

/-- In every run of a fleet, whatever the groups of its agents are: the reports that an agent has
written are those that the broker has read followed by those that wait to be read, in the order in
which the agent acted, and if its role may publish them, the texts of the former stand in this
order in the audit log under its name. -/
theorem reports_are_filed (b : Tables) (acts : List FleetAct) (f : Fleet)
    (hrun : run Fleet.step (.start b) acts = some f) (n : Node) (hn : n ∈ f.nodes) :
    ∃ texts : List CStr, n.reports = texts.map statusRecord ++ n.waiting ∧
      (rbacCanPublish b.policy n.sender.hostname statusTopic = true →
        (texts.map fun text => (n.sender.hostname, statusTopic, text)).Sublist
          f.tables.db.auditLog) := by
  have hstart : (Fleet.start b).Files b.policy :=
    ⟨Fleet.orderly_start b, rfl, List.forall_mem_nil _⟩
  have hany : ∀ a ∈ acts, True := fun _ _ => trivial
  have hinv : f.Files b.policy := run_invariant (fun h _ hs => h.step hs) hstart hany hrun
  obtain ⟨texts, hreports, hrows⟩ := hinv.filed n hn
  rw [hinv.policy_eq] at hrows
  exact ⟨texts, hreports, hrows⟩

/-- Everybody may publish everything. -/
theorem rbacCanPublish_openPolicy (hostname topic : CStr) :
    rbacCanPublish openPolicy hostname topic = true := by
  rfl

theorem reports_are_filed_once :
    ∃ f, run Fleet.step (.start orderedTables) followedActs = some f ∧
      ∀ n ∈ f.nodes, ∃ texts : List CStr, n.reports = texts.map statusRecord ++ n.waiting ∧
        (texts.map fun text => (n.sender.hostname, statusTopic, text)).Sublist
          f.tables.db.auditLog := by
  have hrun : (run Fleet.step (.start orderedTables) followedActs).isSome = true := by
    decide +kernel
  obtain ⟨f, hf⟩ := Option.isSome_iff_exists.mp hrun
  refine ⟨f, hf, fun n hn => ?_⟩
  obtain ⟨texts, hreports, hrows⟩ := reports_are_filed orderedTables followedActs f hf n hn
  exact ⟨texts, hreports, hrows (rbacCanPublish_openPolicy _ _)⟩

end AdMQ
