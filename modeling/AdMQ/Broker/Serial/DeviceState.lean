import AdMQ.Broker.Serial.Serve
import AdMQ.Core.Unwinding

/-!
# The device state as a store

Every host has rows of its own, and a row holds the payload of the latest `SET`
line of the host that was answered with success. `GET` copies a row into a buffer
of 256 bytes, so exactly the payloads of at most 255 bytes come back whole. What
other hosts send has no influence on the replies to a host.
-/

namespace AdMQ

open Core

/-- What an exchange stored for a host under a key: the payload of a `SET` line that was answered
with success. -/
def storedBy (host key : CStr) (x : Request × List CStr) : Option CStr :=
  match parseCommand (messageOf x.1.line) with
  | .set k value =>
    if x.1.sender.hostname = host ∧ k = key ∧ x.2 = [updatedReply key] then some value else none
  | _ => none

/-- The payload of the latest such line of a run. -/
def latestSet (host key : CStr) (run : List (Request × List CStr)) : Option CStr :=
  run.reverse.findSome? (storedBy host key)

/-- What a `GET` line is to be answered. -/
def lawfulReply (key : CStr) : Option CStr → CStr
  | some value => ascii "VALUE: " ++ key ++ ascii "=" ++ value ++ [newline]
  | none => ascii "ERROR: Key '" ++ key ++ ascii "' not found.\n"

theorem latestSet_concat (host key : CStr) (run : List (Request × List CStr))
    (x : Request × List CStr) :
    latestSet host key (run ++ [x]) = (storedBy host key x).or (latestSet host key run) := by
  rw [latestSet, List.reverse_append, List.findSome?_append, latestSet]
  simp

/-! ## One line -/

theorem deniedReply_ne_updatedReply (key : CStr) : deniedReply ≠ updatedReply key := by
  intro h
  have hhead := congrArg List.head? h
  simp [deniedReply, updatedReply, response, ascii, byte] at hhead

theorem parseCommand_nil : parseCommand [] = .invalid := by decide

namespace Tables

variable (b : Tables) (sender : Sender)

/-- Only a `SET` line changes the device state. -/
theorem deviceState_execute {cmd : Command} (h : ∀ key value, cmd ≠ .set key value) :
    (b.execute sender cmd).tables.db.deviceState = b.db.deviceState := by
  cases cmd with
  | set key value => exact absurd rfl (h key value)
  | get key payload => rfl
  | ping => rfl
  | pong => rfl
  | invalid => rfl
  | _ =>
    rw [execute]
    split <;> rfl

/-- A line that is not empty is executed. -/
theorem serveLine_of_command {line : CStr} {cmd : Command}
    (h : parseCommand (messageOf line) = cmd) (hcmd : cmd ≠ .invalid) :
    b.serveLine sender line = b.execute sender cmd := by
  have hne : messageOf line ≠ [] := by
    intro hnil
    rw [hnil, parseCommand_nil] at h
    exact hcmd h.symm
  rw [serveLine, if_neg hne, h]

/-- What a request leaves in a row: what it stored there itself, or what was there. -/
theorem deviceState_step (q : Request) (host key : CStr) :
    (b.step q).db.deviceState host key =
      (storedBy host key (q, b.replies q)).or (b.db.deviceState host key) := by
  rw [storedBy]
  split
  next k value hcmd =>
    rw [step, replies, b.serveLine_of_command q.sender hcmd nofun, execute]
    by_cases hcan : rbacCanSet b.policy q.sender.hostname k = true
    · rw [if_pos hcan]
      by_cases hrow : host = q.sender.hostname ∧ key = k
      · obtain ⟨rfl, rfl⟩ := hrow
        simp [answer, Database.set]
      · have hnot : ¬ (q.sender.hostname = host ∧ k = key ∧
            [updatedReply k] = [updatedReply key]) :=
          fun hsame => hrow ⟨hsame.1.symm, hsame.2.1.symm⟩
        rw [answer, if_neg hnot, Option.none_or]
        exact if_neg hrow
    · have hnot : ¬ (q.sender.hostname = host ∧ k = key ∧ [deniedReply] = [updatedReply key]) :=
        fun hsame => deniedReply_ne_updatedReply key (List.singleton_inj.mp hsame.2.2)
      rw [if_neg hcan, answer, if_neg hnot, Option.none_or]
  next hcmd =>
    rw [Option.none_or, step, serveLine]
    split
    · rfl
    · exact congrFun (congrFun (b.deviceState_execute q.sender hcmd) host) key

/-- A row after a run: the payload of the latest `SET`, or what was there before. -/
theorem deviceState_after (requests : List Request) (host key : CStr) :
    (b.after requests).db.deviceState host key =
      (latestSet host key (b.transcript requests)).or (b.db.deviceState host key) := by
  induction requests using List.reverseRecOn with
  | nil => rfl
  | append_singleton requests q ih =>
    have hafter : b.after (requests ++ [q]) = (b.after requests).step q := by
      rw [after, List.foldl_append]
      rfl
    rw [hafter, deviceState_step, ih, transcript_append]
    rw [transcript, transcript, latestSet_concat, Option.or_assoc]

/-! ## The replies to `GET` -/

/-- The reply buffer holds every key and value. -/
theorem valueReply_eq {key value : CStr} (hkey : key.length ≤ 63) (hvalue : value.length ≤ 255) :
    valueReply key value = lawfulReply key (some value) := by
  have hlength : (ascii "VALUE: " ++ key ++ ascii "=" ++ value ++ [newline]).length =
      key.length + value.length + 9 := by
    simp [ascii]
    omega
  refine List.take_of_length_le ?_
  rw [hlength]
  omega

theorem missingReply_eq {key : CStr} (hkey : key.length ≤ 63) :
    missingReply key = lawfulReply key none := by
  have hlength : (ascii "ERROR: Key '" ++ key ++ ascii "' not found.\n").length =
      key.length + 25 := by
    simp [ascii]
  refine List.take_of_length_le ?_
  rw [hlength]
  omega

/-- `GET` answers with the row as it fits the buffer. -/
theorem replies_execute_get {key : CStr} (hkey : key.length ≤ 63) (payload : CStr) :
    (b.execute sender (.get key payload)).replies =
      [lawfulReply key ((b.db.deviceState sender.hostname key).map (·.take 255))] := by
  rw [execute, Database.get]
  cases b.db.deviceState sender.hostname key with
  | none => exact congrArg List.singleton (missingReply_eq hkey)
  | some value =>
    exact congrArg List.singleton (valueReply_eq hkey (List.length_take_le 255 value))

/-- The reply to a `GET` line. -/
theorem replies_get {line key payload : CStr}
    (h : parseCommand (messageOf line) = .get key payload) :
    (b.serveLine sender line).replies =
      [lawfulReply key ((b.db.deviceState sender.hostname key).map (·.take 255))] := by
  have hkey : key.length ≤ 63 := by
    have hlen := length_parseCommand_topic (messageOf line)
    rwa [h] at hlen
  rw [b.serveLine_of_command sender h nofun]
  exact b.replies_execute_get sender hkey payload

end Tables

/-- A payload comes back whole exactly if it fits the buffer. -/
theorem lawfulReply_take_iff (key : CStr) (row : Option CStr) :
    lawfulReply key (row.map (·.take 255)) = lawfulReply key row ↔
      ∀ value ∈ row, value.length ≤ 255 := by
  cases row with
  | none => simp
  | some value =>
    simp only [Option.map_some, lawfulReply, List.append_cancel_right_eq,
      List.append_cancel_left_eq, Option.mem_some_iff, forall_eq']
    rw [List.take_eq_self_iff]

/-- The store law: after every sequence of lines of any hosts a `GET` line is answered with the
payload of the latest successful `SET` line of its host and key, or that there was none, exactly
if that payload has at most 255 bytes. -/
theorem store_law_iff (b : Tables) (hnew : ∀ host key, b.db.deviceState host key = none)
    (requests : List Request) (sender : Sender) (line key payload : CStr)
    (hget : parseCommand (messageOf line) = .get key payload) :
    ((b.after requests).serveLine sender line).replies =
        [lawfulReply key (latestSet sender.hostname key (b.transcript requests))] ↔
      ∀ value ∈ latestSet sender.hostname key (b.transcript requests), value.length ≤ 255 := by
  rw [Tables.replies_get _ sender hget, b.deviceState_after, hnew, Option.or_none,
    List.singleton_inj, lawfulReply_take_iff]

/-- A broker without rows whose clients may set everything. -/
def setTables : Tables :=
  ⟨loadPolicy (ascii "[role:DEFAULT]\nSET = *\n"), pubsubInit .static, ⟨fun _ _ => none, []⟩⟩

/-- A client of the host `desk`. -/
def deskSender : Sender := ⟨5, ascii "desk"⟩

/-- A row is written twice. -/
def overwriting : List Request :=
  [⟨deskSender, ascii "SET mode on"⟩, ⟨deskSender, ascii "SET mode off"⟩]

theorem store_law_iff_overwriting :
    ((setTables.after overwriting).serveLine deskSender (ascii "GET mode")).replies =
      [ascii "VALUE: mode=off\n"] := by
  have hlatest : latestSet deskSender.hostname (ascii "mode") (setTables.transcript overwriting) =
      some (ascii "off") := by decide +kernel
  have hlaw := (store_law_iff setTables (fun _ _ => rfl) overwriting deskSender
    (ascii "GET mode") (ascii "mode") [] (by decide)).mpr
  rw [hlatest] at hlaw
  refine (hlaw ?_).trans (by decide)
  intro value hvalue
  obtain rfl := Option.some.inj hvalue
  decide

/-- A payload of one byte too many. -/
def longPayload : CStr := List.replicate 256 (byte 'a')

/-- It is stored whole, and `GET` cuts it. -/
theorem payload_cut_longPayload :
    latestSet (ascii "desk") (ascii "mode") (setTables.transcript
      [⟨deskSender, ascii "SET mode " ++ longPayload⟩]) = some longPayload ∧
    ((setTables.after [⟨deskSender, ascii "SET mode " ++ longPayload⟩]).serveLine deskSender
      (ascii "GET mode")).replies = [ascii "VALUE: mode=" ++ longPayload.take 255 ++ [newline]] ∧
    [ascii "VALUE: mode=" ++ longPayload.take 255 ++ [newline]] ≠
      [lawfulReply (ascii "mode") (some longPayload)] := by
  decide +kernel

/-! ## Hosts do not interfere -/

/-- The lines of a run that come from a host. -/
def linesOf (host : CStr) (requests : List Request) : List CStr :=
  requests.filterMap fun q => if q.sender.hostname = host then some q.line else none

/-- The replies of a run to a host, one list for each of its lines. -/
def repliesTo (host : CStr) (run : List (Request × List CStr)) : List (List CStr) :=
  run.filterMap fun x => if x.1.sender.hostname = host then some x.2 else none

/-- What the replies to a host depend on. -/
def Tables.view (host : CStr) (b : Tables) : Policy × (CStr → Option CStr) :=
  (b.policy, b.db.deviceState host)

/-- The replies to a command depend on the view of its host only. -/
theorem Tables.replies_execute_congr {b b' : Tables} {sender sender' : Sender}
    (hhost : sender.hostname = sender'.hostname)
    (hview : b.view sender.hostname = b'.view sender'.hostname) (cmd : Command) :
    (b.execute sender cmd).replies = (b'.execute sender' cmd).replies := by
  obtain ⟨hpolicy, hrows⟩ := Prod.mk.inj hview
  cases cmd with
  | get key payload =>
    simp only [execute, answer, Database.get, hrows]
  | ping => rfl
  | pong => rfl
  | invalid => rfl
  | _ =>
    simp only [execute, hpolicy, hhost]
    split <;> rfl

theorem Tables.replies_congr {b b' : Tables} {q q' : Request} (hline : q.line = q'.line)
    (hhost : q.sender.hostname = q'.sender.hostname)
    (hview : b.view q.sender.hostname = b'.view q'.sender.hostname) :
    b.replies q = b'.replies q' := by
  rw [replies, replies, serveLine, serveLine, hline]
  split
  · rfl
  · exact Tables.replies_execute_congr hhost hview _

/-- What a line stored does not depend on which client of the host sent it. -/
theorem storedBy_congr {q q' : Request} (hline : q.line = q'.line)
    (hhost : q.sender.hostname = q'.sender.hostname) (host key : CStr) (replies : List CStr) :
    storedBy host key (q, replies) = storedBy host key (q', replies) := by
  simp only [storedBy, hline, hhost]

/-- The view of a host satisfies the unwinding conditions. -/
theorem unwinds_view (host : CStr) :
    Unwinds Tables.step Tables.replies
      (fun q : Request => if q.sender.hostname = host then some q.line else none)
      (Tables.view host) where
  hidden b q hseen := by
    have hne : q.sender.hostname ≠ host := fun heq => by simp [heq] at hseen
    refine Prod.ext (b.policy_serveLine q.sender q.line) (funext fun key => ?_)
    refine (b.deviceState_step q host key).trans ?_
    rw [storedBy]
    split
    · rw [if_neg fun hsame => hne hsame.1, Option.none_or]
      rfl
    · rfl
  visible b b' q q' line hview hq hq' := by
    obtain ⟨hhost, hline⟩ := Option.ite_none_right_eq_some.mp hq
    obtain ⟨hhost', hline'⟩ := Option.ite_none_right_eq_some.mp hq'
    have hsame : q.line = q'.line := Option.some.inj (hline.trans hline'.symm)
    have hsame' : q.sender.hostname = q'.sender.hostname := hhost.trans hhost'.symm
    obtain ⟨hpolicy, hrows⟩ := Prod.mk.inj hview
    have hreplies : b.replies q = b'.replies q' := by
      refine Tables.replies_congr hsame hsame' ?_
      rw [hhost, hhost']
      exact hview
    refine ⟨Prod.ext ?_ (funext fun key => ?_), hreplies⟩
    · exact (b.policy_serveLine q.sender q.line).trans
        (hpolicy.trans (b'.policy_serveLine q'.sender q'.line).symm)
    · refine (b.deviceState_step q host key).trans
        (Eq.trans ?_ (b'.deviceState_step q' host key).symm)
      rw [hreplies, storedBy_congr hsame hsame', hrows]

/-- The replies to a host are what an observer of its lines sees. -/
theorem repliesTo_transcript (host : CStr) (b : Tables) (requests : List Request) :
    repliesTo host (b.transcript requests) =
      observed Tables.step Tables.replies
        (fun q : Request => if q.sender.hostname = host then some q.line else none) b requests := by
  induction requests generalizing b with
  | nil => rfl
  | cons q rest ih =>
    rw [Tables.transcript, repliesTo, List.filterMap_cons, observed]
    by_cases hhost : q.sender.hostname = host
    · simp only [hhost, if_true]
      exact congrArg (b.replies q :: ·) (ih (b.step q))
    · simp only [hhost, if_false]
      exact ih (b.step q)

/-- Hosts do not interfere: in two runs from the same policy and database that have the same
lines of a host in the same order, whatever other hosts send, each line of the host gets the same
replies. -/
theorem hosts_noninterfering (b b' : Tables) (hpolicy : b'.policy = b.policy) (hdb : b'.db = b.db)
    (host : CStr) (requests requests' : List Request)
    (hlines : linesOf host requests = linesOf host requests') :
    repliesTo host (b.transcript requests) = repliesTo host (b'.transcript requests') := by
  rw [repliesTo_transcript, repliesTo_transcript]
  refine (unwinds_view host).observed_eq ?_ hlines
  rw [Tables.view, Tables.view, hpolicy, hdb]

/-- Another host sets the same key in one of the runs. -/
theorem hosts_noninterfering_pump :
    repliesTo (ascii "desk") (setTables.transcript
      [⟨deskSender, ascii "SET mode on"⟩, ⟨⟨6, ascii "pump"⟩, ascii "SET mode off"⟩,
        ⟨deskSender, ascii "GET mode"⟩]) =
      repliesTo (ascii "desk") (setTables.transcript
        [⟨deskSender, ascii "SET mode on"⟩, ⟨deskSender, ascii "GET mode"⟩]) :=
  hosts_noninterfering setTables setTables rfl rfl (ascii "desk") _ _ (by decide)

example : repliesTo (ascii "desk") (setTables.transcript
    [⟨deskSender, ascii "SET mode on"⟩, ⟨⟨6, ascii "pump"⟩, ascii "SET mode off"⟩,
      ⟨deskSender, ascii "GET mode"⟩]) =
    [[ascii "SUCCESS: State 'mode' updated.\n"], [ascii "VALUE: mode=on\n"]] := by decide +kernel

end AdMQ
