import AdMQ.Core.Potential
import AdMQ.Broker.PubSub.Capacity
import AdMQ.Broker.Serial.DeviceState
import AdMQ.Broker.Threads.Audit
import AdMQ.Fleet.Network

/-!
# The fleet comes to rest

A report is itself a publication, and agents act on publications. As long as no agent
has `agent-status` for its group this feeds nothing back: a report is written to at
most a hundred connections, where it is printed, and its author gets one reply. Every
order is therefore followed by a bounded number of steps. An agent that does have that
group and may publish there answers its own reports without end.
-/

namespace AdMQ

open Core

/-! ## Weights -/

/-- A record that the agent heeds may cost it a report, and a report a hundred deliveries and a
reply. -/
def Node.recordWeight (n : Node) (record : CStr) : Nat := if n.Heeds record then 103 else 1

def Node.weight (n : Node) : Nat := total n.recordWeight n.inbox + 102 * n.outbox.length

/-- The records on their way. -/
def Fleet.weight (f : Fleet) : Nat := total Node.weight f.nodes

namespace Node

variable (n : Node)

theorem recordWeight_le (record : CStr) : n.recordWeight record ≤ 103 := by
  rw [recordWeight]
  split <;> omega

theorem recordWeight_of_not_heeds {record : CStr} (h : ¬ n.Heeds record) :
    n.recordWeight record = 1 := if_neg h

theorem weight_deliver (writes : List (Int × CStr)) :
    (n.deliver writes).weight =
      n.weight + total n.recordWeight (textsFor n.sender.fd writes) := by
  change total n.recordWeight (n.inbox ++ _) + 102 * n.outbox.length = _
  rw [total_append, weight]
  omega

theorem weight_send (record : CStr) : (n.send record).weight = n.weight + 102 := by
  change total n.recordWeight n.inbox + 102 * (n.outbox ++ [record]).length = _
  rw [List.length_append, List.length_singleton, weight]
  omega

theorem weight_joined (sender : Sender) (station : Station) (buffer : ClientBuffer) :
    (joined sender station buffer).weight = 204 := by
  rw [weight, joined, total]
  rfl

variable {n}

theorem weight_served {record : CStr} {rest : List CStr} (h : n.outbox = record :: rest)
    (buffer : ClientBuffer) : (n.served buffer rest).weight + 102 = n.weight := by
  change total n.recordWeight n.inbox + 102 * rest.length + 102 = _
  rw [weight, h, List.length_cons]
  omega

/-- Only a heeded message is answered, and by one report at most. -/
theorem length_report_le (stack : CStr) (forked : Forked) (record : CStr) :
    (n.station.handle stack forked record).report.toList.length ≤
      if n.Heeds record then 1 else 0 := by
  split
  · exact Option.length_toList_le
  next hnot =>
    have hnothing : n.station.handle stack forked record = .nothing := if_neg hnot
    rw [hnothing]
    exact Nat.le_refl 0

/-- Handling a record lowers the weight. -/
theorem weight_handled {record : CStr} {rest : List CStr} (h : n.inbox = record :: rest)
    (stack : CStr) (forked : Forked) : (n.handled stack forked record rest).weight < n.weight := by
  have hreport := length_report_le (n := n) stack forked record
  change total n.recordWeight rest + 102 * (n.outbox ++ _).length < _
  rw [weight, h, total, List.length_append, recordWeight]
  split at hreport
  · rw [if_pos ‹_›]
    omega
  · rw [if_neg ‹_›]
    omega

end Node

/-! ## What is written at once -/

/-- Each text goes to one connection at most. -/
theorem total_textsFor_le {nodes : List Node} (hnodup : (nodes.map (·.sender.fd)).Nodup)
    (writes : List (Int × CStr)) :
    total (fun n => (textsFor n.sender.fd writes).length) nodes ≤ writes.length := by
  induction writes with
  | nil =>
    have hnone : total (fun n : Node => (textsFor n.sender.fd []).length) nodes ≤
        0 * nodes.length := total_le_mul fun n _ => Nat.le_refl 0
    omega
  | cons w writes ih =>
    have hcons (n : Node) : (textsFor n.sender.fd (w :: writes)).length =
        (if n.sender.fd = w.1 then 1 else 0) + (textsFor n.sender.fd writes).length := by
      by_cases h : w.1 = n.sender.fd
      · simp [textsFor, h, Nat.add_comm]
      · simp [textsFor, h, Ne.symm h]
    have hone := total_ite_key_le (fun n : Node => n.sender.fd) hnodup w.1
    rw [funext hcons, total_add, List.length_cons]
    omega

/-- What a delivery to all connections adds. -/
theorem total_weight_deliver_le {nodes : List Node} (hnodup : (nodes.map (·.sender.fd)).Nodup)
    {writes : List (Int × CStr)} {bound : Nat}
    (h : ∀ n ∈ nodes, ∀ w ∈ writes, n.recordWeight w.2 ≤ bound) :
    total Node.weight (nodes.map (·.deliver writes)) ≤
      total Node.weight nodes + bound * writes.length := by
  have htexts : ∀ n ∈ nodes, total n.recordWeight (textsFor n.sender.fd writes) ≤
      bound * (textsFor n.sender.fd writes).length := by
    intro n hn
    refine total_le_mul ?_
    intro text htext
    obtain ⟨w, hw, rfl⟩ := List.mem_map.mp htext
    exact h n hn w (List.mem_of_mem_filter hw)
  rw [total_map, funext fun n : Node => n.weight_deliver writes, total_add]
  refine Nat.add_le_add_left ?_ _
  exact (total_le_total htexts).trans ((total_mul ..).trans_le
    (Nat.mul_le_mul_left bound (total_textsFor_le hnodup writes)))

/-- A topic has a hundred subscribers at most. -/
theorem PubSub.length_subscribersOf_le (p : PubSub) (topicName : CStr) :
    (p.subscribersOf topicName).length ≤ 100 := by
  rw [subscribersOf]
  split
  · exact Nat.zero_le _
  next t _ => exact t.subscribers.length_live.trans_le t.subscribers.count_le

theorem Tables.deliveries_execute (b : Tables) (sender : Sender) (cmd : Command) :
    (b.execute sender cmd).deliveries = [] ∨ ∃ topic payload, cmd = .publish topic payload ∧
      (b.execute sender cmd).deliveries = pubsubPublish b.topics topic payload := by
  cases cmd with
  | publish topic payload =>
    rw [execute]
    split
    · exact .inr ⟨topic, payload, rfl, rfl⟩
    · exact .inl rfl
  | get | ping | pong | invalid => exact .inl rfl
  | set | subscribe | unsubscribe =>
    rw [execute]
    split <;> exact .inl rfl

/-- An agent of another group prints a report. -/
theorem IsStatus.not_heeds {payload : CStr} (h : IsStatus payload) {n : Node}
    (hquiet : n.station.commandGroup ≠ statusTopic) :
    ¬ n.Heeds (formattedMsg statusTopic payload) := by
  rw [Node.Heeds, h.publishable.executes_iff]
  rintro ⟨-, hgroup⟩
  exact hquiet (hgroup.symm.trans (by decide))

/-- No agent heeds a reply. -/
theorem Tables.not_heeds_reply {b : Tables} {sender : Sender} {cmd : Command} {text : CStr}
    (h : text ∈ (b.execute sender cmd).replies) (n : Node) : ¬ n.Heeds text := by
  obtain ⟨c, rest, rfl, hc⟩ := (b.replies_execute sender cmd).2 text h
  rw [Node.Heeds, agentMessage_of_head hc]
  rintro ⟨-, hne, -⟩
  exact absurd hne (Nat.lt_irrefl 0)

/-- What is written for a record of an agent: few texts, which nobody heeds. -/
theorem Node.Orderly.writes_serving {n : Node} (h : n.Orderly) {record : CStr} {rest : List CStr}
    (hout : n.outbox = record :: rest) (f : Fleet) :
    (f.serving n record).2.length ≤ 101 ∧
    ∀ m : Node, m.station.commandGroup ≠ statusTopic →
      ∀ w ∈ (f.serving n record).2, ¬ m.Heeds w.2 := by
  obtain ⟨line, cmd, -, -, hagent, -, hserving⟩ := h.serving hout f
  rw [hserving, Executed.writes]
  have hreplies := (f.tables.replies_execute n.sender cmd).1
  have hreply (m : Node) :
      ∀ w ∈ (f.tables.execute n.sender cmd).replies.map fun text => (n.sender.fd, text),
        ¬ m.Heeds w.2 := by
    rw [List.forall_mem_map]
    exact fun text htext => Tables.not_heeds_reply htext m
  rcases f.tables.deliveries_execute n.sender cmd with hnone | ⟨topic, payload, rfl, hsome⟩
  · rw [hnone, List.nil_append, List.length_map]
    exact ⟨by omega, fun m _ => hreply m⟩
  · obtain ⟨rfl, hstatus, -⟩ := hagent.publish topic payload rfl
    have hlen := f.tables.topics.length_subscribersOf_le statusTopic
    rw [hsome, List.length_append, List.length_map, pubsubPublish, List.length_map]
    refine ⟨by omega, ?_⟩
    intro m hquiet
    rw [List.forall_mem_append, List.forall_mem_map]
    exact ⟨fun _ _ => hstatus.not_heeds hquiet, hreply m⟩

/-! ## Steps -/

namespace Fleet

variable {f f' : Fleet}

/-- No agent has the topic of the reports for its group. -/
def Quiet (f : Fleet) : Prop := ∀ n ∈ f.nodes, n.station.commandGroup ≠ statusTopic

end Fleet

/-- Only agents of other groups join. -/
def FleetAct.Quiet : FleetAct → Prop
  | .join _ station _ => station.commandGroup ≠ statusTopic
  | _ => True

/-- What an action from outside may add to the weight. -/
def FleetAct.price : FleetAct → Nat
  | .join .. => 204
  | .order .. => 10300
  | .ping _ => 102
  | _ => 0

namespace Fleet

variable {f f' : Fleet}

/-- Agents keep their group. -/
theorem Quiet.step (h : f.Quiet) (ho : f.Orderly) {a : FleetAct} (ha : a.Quiet)
    (hs : f.step a = some f') : f'.Quiet := by
  intro n' hn'
  obtain ⟨sender, station, buffer, rfl, -, rfl⟩ | ⟨n, hn, hmove⟩ := exists_move ho.nodup hs hn'
  · exact ha
  · rw [hmove.same.1]
    exact h n hn

theorem At.weight {front back : List Node} {n : Node} (h : f.At front n back) :
    f.weight = total Node.weight front + (n.weight + total Node.weight back) := by
  rw [Fleet.weight, h.nodes, total_append, total]

/-- Serving a record lowers the weight. -/
theorem weight_served_lt (ho : f.Orderly) (hq : f.Quiet) {front back : List Node} {n : Node}
    (hat : f.At front n back) {record : CStr} {rest : List CStr}
    (hout : n.outbox = record :: rest) : (f.served n record rest).weight < f.weight := by
  obtain ⟨hlen, hinert⟩ := (ho.nodes n hat.mem).writes_serving hout f
  have hserved := Node.weight_served hout (receive n.buffer record).2
  have hfds := fds_update f.nodes n.sender.fd (·.served (receive n.buffer record).2 rest)
    fun _ => rfl
  have hlight : ∀ m ∈ Fleet.update f.nodes n.sender.fd
      (·.served (receive n.buffer record).2 rest), ∀ w ∈ (f.serving n record).2,
      m.recordWeight w.2 ≤ 1 := by
    intro m hm w hw
    obtain ⟨m₀, hm₀, rfl⟩ := List.mem_map.mp hm
    refine (Node.recordWeight_of_not_heeds _ (hinert _ ?_ w hw)).le
    split
    · exact hq m₀ hm₀
    · exact hq m₀ hm₀
  have hdeliver : (f.served n record rest).weight ≤
      total Node.weight (Fleet.update f.nodes n.sender.fd
        (·.served (receive n.buffer record).2 rest)) + 1 * (f.serving n record).2.length :=
    total_weight_deliver_le (hfds ▸ ho.nodup) hlight
  rw [hat.update, total_append, total] at hdeliver
  rw [hat.weight]
  omega

/-- The weights pay for the steps of a quiet fleet. -/
theorem paid : Paid Fleet.step FleetAct.Quiet FleetAct.inner Fleet.weight FleetAct.price
    fun f => f.Orderly ∧ f.Quiet where
  keeps h ha hs := ⟨h.1.step hs, h.2.step h.1 ha hs⟩
  lowers := by
    rintro f a f' ⟨ho, hq⟩ ha hs
    cases a with
    | serve fd =>
      obtain ⟨front, n, back, record, rest, hat, -, hout, rfl⟩ := exists_of_serve ho.nodup hs
      exact weight_served_lt ho hq hat hout
    | handle fd stack forked =>
      obtain ⟨front, n, back, record, rest, hat, -, hin, rfl⟩ := exists_of_handle ho.nodup hs
      have hlt := Node.weight_handled hin stack forked
      rw [hat.weight, Fleet.weight, total_append, total]
      omega
    | _ => cases ha
  raises := by
    rintro f a f' ⟨ho, hq⟩ - ha hs
    cases a with
    | join sender station buffer =>
      rw [Fleet.step] at hs
      split at hs
      · obtain rfl := Option.some.inj hs
        rw [Fleet.weight, total_append, total, Node.weight_joined]
        exact Nat.le_refl _
      · cases hs
    | leave fd =>
      rw [Fleet.step] at hs
      split at hs
      · obtain rfl := Option.some.inj hs
        exact total_filter_le ..
      · cases hs
    | order topic message =>
      obtain rfl := Option.some.inj hs
      have hlen := f.tables.topics.length_subscribersOf_le topic
      have hheavy : ∀ m ∈ f.nodes, ∀ w ∈ pubsubPublish f.tables.topics topic message,
          m.recordWeight w.2 ≤ 103 := fun m _ w _ => m.recordWeight_le w.2
      have hdeliver := total_weight_deliver_le ho.nodup hheavy
      rw [pubsubPublish, List.length_map, total_map] at hdeliver
      rw [Fleet.weight, total_map, FleetAct.price]
      exact hdeliver.trans (Nat.add_le_add_left (Nat.mul_le_mul_left 103 hlen) _)
    | ping fd =>
      rw [Fleet.step] at hs
      split at hs
      next hmem =>
        obtain rfl := Option.some.inj hs
        obtain ⟨n, hn, rfl⟩ := List.mem_map.mp hmem
        obtain ⟨front, back, hat⟩ := exists_at_of_mem ho.nodup hn
        rw [Fleet.weight, hat.update, hat.weight, total_append, total, Node.weight_send,
          FleetAct.price]
        omega
      · cases hs
    | serve | handle => cases ha

/-! ## Rest -/

/-- Nothing is on its way. -/
def AtRest (f : Fleet) : Prop := ∀ n ∈ f.nodes, n.inbox = [] ∧ n.outbox = []

/-- As long as something is on its way, it can be read. -/
theorem exists_inner_step (ho : f.Orderly) (h : ¬ f.AtRest) :
    ∃ a, FleetAct.inner a = true ∧ (f.step a).isSome = true := by
  simp only [AtRest, not_forall, not_and_or] at h
  obtain ⟨n, hn, hin | hout⟩ := h
  · obtain ⟨record, rest, hcons⟩ := List.exists_cons_of_ne_nil hin
    refine ⟨.handle n.sender.fd [] notForked, rfl, ?_⟩
    simp only [step, node?_of_mem ho.nodup hn, hcons, Option.isSome_some]
  · obtain ⟨record, rest, hcons⟩ := List.exists_cons_of_ne_nil hout
    refine ⟨.serve n.sender.fd, rfl, ?_⟩
    simp only [step, node?_of_mem ho.nodup hn, hcons, Option.isSome_some]

theorem AtRest.step_eq_none (h : f.AtRest) {a : FleetAct} (ha : a.inner = true) :
    f.step a = none := by
  have hempty {fd : Int} {n : Node} (hn : f.node? fd = some n) : n.inbox = [] ∧ n.outbox = [] :=
    h n (mem_of_node? hn).1
  cases a with
  | serve fd =>
    rw [step]
    cases hn : f.node? fd with
    | none => rfl
    | some n => simp only [(hempty hn).2]
  | handle fd stack forked =>
    rw [step]
    cases hn : f.node? fd with
    | none => rfl
    | some n => simp only [(hempty hn).1]
  | _ => cases ha

end Fleet

/-- In every run of a fleet without agents of the group `agent-status`, and whatever follows it: the
steps of broker and agents are at most 10300 for each order, 102 for each ping and 204 for each
agent that has joined, and they stop only when no record is on its way. -/
theorem fleet_comes_to_rest (b : Tables) (acts : List FleetAct) (f : Fleet)
    (hquiet : ∀ a ∈ acts, a.Quiet) (hrun : run Fleet.step (.start b) acts = some f) :
    (∀ more f', (∀ a ∈ more, FleetAct.inner a = true) → run Fleet.step f more = some f' →
      acts.countP FleetAct.inner + more.length ≤ paidFor FleetAct.inner FleetAct.price acts) ∧
    (f.AtRest ↔ ∀ a, FleetAct.inner a = true → f.step a = none) := by
  have hstart : (Fleet.start b).Orderly ∧ (Fleet.start b).Quiet :=
    ⟨Fleet.orderly_start b, List.forall_mem_nil _⟩
  have hinv := run_invariant Fleet.paid.keeps hstart hquiet hrun
  refine ⟨?_, fun h a ha => h.step_eq_none ha, ?_⟩
  · intro more f' hinner hmore
    have hquiet' : ∀ a ∈ more, a.Quiet := by
      intro a ha
      have hin := hinner a ha
      cases a with
      | join => cases hin
      | _ => trivial
    have hpaid := Fleet.paid.countP_le hstart hquiet hrun
    have hleft := Fleet.paid.countP_le hinv hquiet' hmore
    have hnone : paidFor FleetAct.inner FleetAct.price more = 0 := paidFor_eq_zero hinner
    rw [List.countP_eq_length.mpr hinner, hnone] at hleft
    change _ ≤ 0 + _ at hpaid
    omega
  · intro hstuck
    by_contra hrest
    obtain ⟨a, ha, hsome⟩ := Fleet.exists_inner_step hinv.1 hrest
    rw [hstuck a ha] at hsome
    cases hsome

/-- An agent joins, pings and gets an order. -/
def orderedFleetActs : List FleetAct :=
  [.join deskSender bareStation .fresh, .ping 5, .order (ascii "CMD-GRP-1") (ascii "restart web")]

theorem fleet_comes_to_rest_ordered :
    ∃ f, run Fleet.step (.start setTables) orderedFleetActs = some f ∧
      ∀ more f', (∀ a ∈ more, FleetAct.inner a = true) → run Fleet.step f more = some f' →
        more.length ≤ 10606 := by
  have hgroup : bareStation.commandGroup ≠ statusTopic := by decide
  have hquiet : ∀ a ∈ orderedFleetActs, a.Quiet := by
    simp only [orderedFleetActs, List.forall_mem_cons]
    exact ⟨hgroup, trivial, trivial, List.forall_mem_nil _⟩
  have hrun : (run Fleet.step (.start setTables) orderedFleetActs).isSome = true := by
    rfl
  obtain ⟨f, hf⟩ := Option.isSome_iff_exists.mp hrun
  refine ⟨f, hf, fun more f' hinner hmore => ?_⟩
  have hbound := (fleet_comes_to_rest setTables orderedFleetActs f hquiet hf).1 more f' hinner hmore
  exact (Nat.le_add_left _ _).trans hbound

/-! ## Reports that feed back -/

theorem command_scanAction_word {word : CStr} (hword : IsWord 63 word) (topic text : CStr) :
    (scanAction topic (byte ' ' :: (word ++ byte ' ' :: text))).command = word := by
  have hspace : isspace (byte ' ') = true := by decide
  rw [scanAction, scanWord_cons_space hspace, hword.scanWord_space hspace]
  simp only
  split <;> rfl

/-- The word that an agent takes for the command of a report. -/
theorem IsStatus.command {payload : CStr} (h : IsStatus payload) :
    (agentMessage (formattedMsg statusTopic payload)).command = ascii "SUCCESS:" ∨
    (agentMessage (formattedMsg statusTopic payload)).command = ascii "ERROR:" := by
  have hread {word text : CStr} (hword : IsWord 63 word)
      (htext : payload = word ++ byte ' ' :: text) :
      (agentMessage (formattedMsg statusTopic payload)).command = word := by
    have hbracket : messageText statusTopic payload =
        byte '[' :: (statusTopic ++ byte ']' :: (byte ' ' :: (word ++ byte ' ' :: text))) := by
      rw [htext]
      rfl
    rw [h.publishable.agentMessage_eq, hbracket,
      scanAgentMessage_bracket (by decide) (by decide) (by decide), command_scanAction_word hword]
  cases h with
  | success => exact .inl (hread (by decide) rfl)
  | unknown => exact .inr (hread (by decide) rfl)

/-- An agent of the group `agent-status`, without actions for the first words of reports. -/
structure Station.Echoes (st : Station) : Prop where
  group : st.commandGroup = statusTopic
  success : st.files (actionPath st.actionDir (ascii "SUCCESS:")) = none
  error : st.files (actionPath st.actionDir (ascii "ERROR:")) = none

/-- Such an agent answers a report by a report. -/
theorem Station.Echoes.report {st : Station} (h : st.Echoes) {payload : CStr}
    (hstatus : IsStatus payload) (stack : CStr) (forked : Forked) :
    ∃ answer, IsStatus answer ∧
      (st.handle stack forked (formattedMsg statusTopic payload)).report =
        some (statusRecord answer) := by
  have hexec : (agentMessage (formattedMsg statusTopic payload)).Executes st.commandGroup := by
    rw [hstatus.publishable.executes_iff, h.group]
    decide
  have hfile : st.files (actionPath st.actionDir
      (agentMessage (formattedMsg statusTopic payload)).command) = none := by
    rcases hstatus.command with hword | hword
    · rw [hword, h.success]
    · rw [hword, h.error]
  obtain ⟨hword, hnul, hlen, hplain⟩ := clean_agentMessage (formattedMsg statusTopic payload)
  have hcommand := hword (List.ne_nil_of_length_pos hexec.2.2)
  refine ⟨_, .unknown hcommand hnul hlen hplain, ?_⟩
  rw [Station.handle, if_pos hexec, Station.act, parseIniAction, hfile]
  exact congrArg some (unknownReport_eq hcommand.length_le hlen)

namespace Fleet

variable {f f' : Fleet}

/-- An agent that gets its own reports, with one on its way. -/
structure FeedsBack (f : Fleet) (n : Node) : Prop where
  mem : n ∈ f.nodes
  echoes : n.station.Echoes
  publishes : rbacCanPublish f.tables.policy n.sender.hostname statusTopic = true
  subscribed : n.sender.fd ∈ f.tables.topics.subscribersOf statusTopic
  pending : ∃ payload, IsStatus payload ∧
    (formattedMsg statusTopic payload ∈ n.inbox ∨ statusRecord payload ∈ n.outbox)

theorem FeedsBack.handle {n : Node} (h : f.FeedsBack n) (ho : f.Orderly) {record : CStr}
    {rest : List CStr} (hin : n.inbox = record :: rest) :
    ∃ f', f.step (.handle n.sender.fd [] notForked) = some f' ∧
      f'.FeedsBack (n.handled [] notForked record rest) := by
  obtain ⟨front, back, hat⟩ := exists_at_of_mem ho.nodup h.mem
  refine ⟨{ f with nodes := front ++ n.handled [] notForked record rest :: back }, ?_, ?_⟩
  · rw [← hat.update (·.handled [] notForked record rest)]
    simp only [step, node?_of_mem ho.nodup h.mem, hin]
  · refine ⟨List.mem_append_right _ List.mem_cons_self, h.echoes, h.publishes, h.subscribed, ?_⟩
    obtain ⟨payload, hstatus, hinbox | houtbox⟩ := h.pending
    · rw [hin, List.mem_cons] at hinbox
      rcases hinbox with hfirst | hrest
      · obtain ⟨answer, hanswer, hreport⟩ := h.echoes.report hstatus [] notForked
        rw [hfirst] at hreport
        refine ⟨answer, hanswer, .inr (List.mem_append_right _ ?_)⟩
        rw [hreport]
        exact List.mem_cons_self
      · exact ⟨payload, hstatus, .inl hrest⟩
    · exact ⟨payload, hstatus, .inr (List.mem_append_left _ houtbox)⟩

end Fleet

/-- Commands other than `UNSUBSCRIBE` take nobody out of a list. -/
theorem Tables.mem_subscribersOf_execute {b : Tables} {fd : Int} {topicName : CStr}
    (h : fd ∈ b.topics.subscribersOf topicName) (sender : Sender) {cmd : Command}
    (hcmd : ∀ topic, cmd ≠ .unsubscribe topic)
    (hlen : ∀ topic payload, cmd = .subscribe topic payload → topic.length ≤ 63) :
    fd ∈ (b.execute sender cmd).tables.topics.subscribersOf topicName := by
  cases cmd with
  | subscribe topic payload =>
    rw [execute]
    split
    · exact PubSub.mem_pubsubSubscribe_of_mem h sender.fd (hlen topic payload rfl)
    · exact h
  | unsubscribe topic => exact absurd rfl (hcmd topic)
  | set | publish =>
    rw [execute]
    split <;> exact h
  | get | ping | pong | invalid => exact h

namespace Fleet

variable {f f' : Fleet}

theorem FeedsBack.serve {n : Node} (h : f.FeedsBack n) (ho : f.Orderly) {record : CStr}
    {rest : List CStr} (hin : n.inbox = []) (hout : n.outbox = record :: rest) :
    ∃ f' n', f.step (.serve n.sender.fd) = some f' ∧ f'.FeedsBack n' := by
  obtain ⟨front, back, hat⟩ := exists_at_of_mem ho.nodup h.mem
  have hn := ho.nodes n h.mem
  refine ⟨f.served n record rest, (n.served (receive n.buffer record).2 rest).deliver
    (f.serving n record).2, ?_, ?_⟩
  · simp only [step, node?_of_mem ho.nodup h.mem, hout]
  have hmem : (n.served (receive n.buffer record).2 rest).deliver (f.serving n record).2 ∈
      (f.served n record rest).nodes := by
    refine List.mem_map_of_mem ?_
    rw [hat.update]
    exact List.mem_append_right _ List.mem_cons_self
  -- No record of an agent takes a permission or a subscription away.
  obtain ⟨line, cmd, -, hline, hagent, -, hserving⟩ := hn.serving hout f
  have htables : (f.served n record rest).tables = (f.tables.execute n.sender cmd).tables :=
    congrArg Prod.fst hserving
  refine ⟨hmem, h.echoes, ?_, ?_, ?_⟩
  · rw [htables, Tables.policy_execute]
    exact h.publishes
  · rw [htables]
    refine Tables.mem_subscribersOf_execute h.subscribed n.sender hagent.unsubscribe ?_
    rintro topic payload rfl
    exact length_topic_of_subscribe hline.parse
  · obtain ⟨payload, hstatus, hinbox | houtbox⟩ := h.pending
    · rw [hin] at hinbox
      cases hinbox
    · rw [hout, List.mem_cons] at houtbox
      rcases houtbox with hfirst | hrest
      · refine ⟨payload, hstatus, .inl (List.mem_append_right _ ?_)⟩
        have hreport := (hstatus.commandLine.serveWrites f.tables n.sender hn.empty).2
        rw [← statusRecord, hfirst, ← serving] at hreport
        rw [hreport, Tables.execute, if_pos h.publishes]
        refine List.mem_map.mpr ⟨(n.sender.fd, formattedMsg statusTopic payload), ?_, rfl⟩
        refine List.mem_filter.mpr ⟨List.mem_append_left _ ?_, decide_eq_true rfl⟩
        exact List.mem_map_of_mem h.subscribed
      · exact ⟨payload, hstatus, .inr hrest⟩

/-- The next step of an agent that feeds back. -/
theorem FeedsBack.exists_step {n : Node} (h : f.FeedsBack n) (ho : f.Orderly) :
    ∃ a f', FleetAct.inner a = true ∧ f.step a = some f' ∧
      f'.Orderly ∧ ∃ n', f'.FeedsBack n' := by
  cases hin : n.inbox with
  | cons record rest =>
    obtain ⟨f', hs, h'⟩ := h.handle ho hin
    exact ⟨_, f', rfl, hs, ho.step hs, _, h'⟩
  | nil =>
    cases hout : n.outbox with
    | cons record rest =>
      obtain ⟨f', n', hs, h'⟩ := h.serve ho hin hout
      exact ⟨_, f', rfl, hs, ho.step hs, n', h'⟩
    | nil =>
      obtain ⟨payload, -, hinbox | houtbox⟩ := h.pending
      · rw [hin] at hinbox
        cases hinbox
      · rw [hout] at houtbox
        cases houtbox

end Fleet

/-- An agent of the group `agent-status` that may publish there and gets what is published there,
and has no actions named like the first words of reports: once a report is on its way, it answers
its own reports without end, whatever else is going on and without any further order. -/
theorem reports_feed_back (f : Fleet) (n : Node) (hf : f.Orderly) (hfeeds : f.FeedsBack n)
    (steps : Nat) :
    ∃ acts f', acts.length = steps ∧ (∀ a ∈ acts, FleetAct.inner a = true) ∧
      run Fleet.step f acts = some f' ∧ ¬ f'.AtRest := by
  have hendless (g : Fleet) (hg : g.Orderly ∧ ∃ n, g.FeedsBack n) :
      ∃ a g', FleetAct.inner a = true ∧ g.step a = some g' ∧ g'.Orderly ∧ ∃ n, g'.FeedsBack n :=
    hg.2.elim fun n hn => hn.exists_step hg.1
  obtain ⟨acts, f', hlen, hinner, hrun, -, n', hn'⟩ :=
    exists_run_of_endless hendless steps ⟨hf, n, hfeeds⟩
  refine ⟨acts, f', hlen, hinner, hrun, ?_⟩
  intro hrest
  obtain ⟨hin, hout⟩ := hrest n' hn'.mem
  obtain ⟨payload, -, hinbox | houtbox⟩ := hn'.pending
  · rw [hin] at hinbox
    cases hinbox
  · rw [hout] at houtbox
    cases houtbox

theorem statusTopic_fits :
    statusTopic.length ≤ 63 ∧ 0 ∉ statusTopic ∧ newline ∉ statusTopic := by decide

/-- An agent whose group is `agent-status`. -/
def echoStation : Station where
  commandGroup := statusTopic
  actionDir := ascii "./actions"
  files _ := none
  length_group := statusTopic_fits.1
  nul_group := statusTopic_fits.2.1
  newline_group := statusTopic_fits.2.2

/-- The report that an agent of another group has written. -/
def echoedText : CStr := unknownText (ascii "restart") (ascii "web")

/-- It has reached the agent, which is subscribed and may publish. -/
def echoNode : Node :=
  { Node.joined deskSender echoStation .fresh with
    inbox := [formattedMsg statusTopic echoedText], outbox := [] }

def echoFleet : Fleet :=
  ⟨⟨openPolicy, pubsubSubscribe (pubsubInit .static) 5 statusTopic, .empty⟩, [echoNode]⟩

theorem reports_feed_back_echo :
    ∃ acts f', acts.length = 1000 ∧ (∀ a ∈ acts, FleetAct.inner a = true) ∧
      run Fleet.step echoFleet acts = some f' ∧ ¬ f'.AtRest := by
  have hplain : ∀ b ∈ ascii "web", b ≠ 0 ∧ b ≠ byte '\r' ∧ b ≠ newline := plain_of_all rfl
  have hstatus : IsStatus echoedText := .unknown (by decide) (by decide) (by decide) hplain
  have hordered : echoFleet.Orderly :=
    ⟨List.nodup_singleton _, List.forall_mem_singleton.mpr ⟨rfl, List.forall_mem_nil _⟩⟩
  have hsubscribed : (5 : Int) ∈
      (pubsubSubscribe (pubsubInit .static) 5 statusTopic).subscribersOf statusTopic :=
    (PubSub.mem_pubsubSubscribe_self_iff _ 5 (by decide)).mpr (by decide +kernel)
  refine reports_feed_back echoFleet echoNode hordered ⟨List.mem_singleton_self _, ⟨rfl, rfl, rfl⟩,
    ?_, hsubscribed, echoedText, hstatus, .inl (List.mem_singleton_self _)⟩ 1000
  decide +kernel

end AdMQ
