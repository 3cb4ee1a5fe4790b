import AdMQ.Broker.Serial.DeviceState
import AdMQ.Broker.Worker.Grammar

/-!
# One reply for each line

Whatever a client sends, however its stream is cut into tasks and whatever other
clients do to the tables between two tasks: every line of the client that is not
empty and is no `PONG` gets exactly one reply, in the order of the lines, and every
reply is one whole line that fits the response buffer.
-/

namespace AdMQ

open Core

/-- The lines that are to be answered. -/
def WantsReply (line : CStr) : Prop :=
  messageOf line ≠ [] ∧ firstWord (messageOf line) ≠ ascii "PONG"

instance (line : CStr) : Decidable (WantsReply line) := inferInstanceAs (Decidable (_ ∧ _))

/-- One whole line that fits the response buffer. -/
structure IsReplyLine (text : CStr) : Prop where
  length_le : text.length ≤ 511
  ends : ∃ body, text = body ++ [newline] ∧ newline ∉ body

/-- The texts that a command may be answered with, none of them cut. -/
def Command.Reply : Command → CStr → Prop
  | .set key _, text =>
    text = deniedReply ∨ text = ascii "SUCCESS: State '" ++ key ++ ascii "' updated.\n"
  | .get key _, text => ∃ row, text = lawfulReply key row
  | .ping, text => text = ascii "PONG\n"
  | .pong, _ => False
  | .subscribe topic _, text =>
    text = deniedReply ∨ text = ascii "Subscribed to " ++ topic ++ [newline]
  | .unsubscribe topic, text =>
    text = deniedReply ∨ text = ascii "Unsubscribed from " ++ topic ++ [newline]
  | .publish topic _, text =>
    text = deniedReply ∨ text = ascii "Published to " ++ topic ++ [newline]
  | .invalid, text => text = ascii "ERROR: Invalid command.\n"

/-- A reply to a line. -/
def IsReplyTo (line text : CStr) : Prop :=
  (parseCommand (messageOf line)).Reply text ∧ IsReplyLine text

/-- No value of the device state holds a newline. -/
def Database.NewlineFree (db : Database) : Prop :=
  ∀ host key, ∀ value ∈ db.deviceState host key, newline ∉ value

/-! ## The first word -/

theorem parsedItems_pos {message : CStr} (h : (scanMessage message).command ≠ []) :
    1 ≤ (scanMessage message).parsedItems := by
  rw [scanMessage] at h ⊢
  split
  next hnone =>
    rw [hnone] at h
    exact absurd rfl h
  · split
    · exact Nat.le_refl 1
    · split
      · exact Nat.le_succ 1
      · exact Nat.le_add_left 1 2

/-- The worker takes a line for a `PONG` exactly by its first word. -/
theorem parseCommand_eq_pong_iff (message : CStr) :
    parseCommand message = .pong ↔ firstWord message = ascii "PONG" := by
  rw [← command_eq_iff (by decide), parseCommand]
  constructor
  · intro h
    simp only [Scanned.branch] at h
    split_ifs at h with _ _ _ hpong
    exact hpong.2
  · intro h
    have hitems : 1 ≤ (scanMessage message).parsedItems := by
      refine parsedItems_pos ?_
      rw [h]
      decide
    have hset : ascii "PONG" ≠ ascii "SET" := by decide
    have hget : ascii "PONG" ≠ ascii "GET" := by decide
    have hping : ascii "PONG" ≠ ascii "PING" := by decide
    simp only [Scanned.branch, h, hset, hget, hping, hitems, and_false, if_false, and_self, if_true]

/-- The payload of a `SET` line holds no newline. -/
theorem newline_notMem_of_set {message key value : CStr}
    (h : parseCommand message = .set key value) : newline ∉ value := by
  have hpayload : newline ∉ (scanMessage message).payload := by
    rw [scanMessage]
    split
    · exact List.not_mem_nil
    · split
      · exact List.not_mem_nil
      · split
        · exact List.not_mem_nil
        next hscan => exact (of_scanUntil hscan).2.2.1
  simp only [parseCommand, Scanned.branch] at h
  split_ifs at h
  rwa [(Command.set.inj h).2] at hpayload

/-! ## The texts -/

/-- A text around a topic is not cut and is one line. -/
theorem framed (front back : CStr) {topic : CStr} (htopic : topic = [] ∨ IsWord 63 topic)
    (hfront : newline ∉ front) (hback : newline ∉ back)
    (hlen : front.length + back.length ≤ 447) :
    response (front ++ topic ++ (back ++ [newline])) = front ++ topic ++ (back ++ [newline]) ∧
    IsReplyLine (front ++ topic ++ (back ++ [newline])) := by
  have hlength := length_topic htopic
  have hnewline : newline ∉ topic := by
    rcases htopic with rfl | hword
    · exact List.not_mem_nil
    · exact hword.notMem (by decide)
  have hle : (front ++ topic ++ (back ++ [newline])).length ≤ 511 := by
    simp only [List.length_append, List.length_singleton]
    omega
  refine ⟨List.take_of_length_le hle, hle, front ++ topic ++ back, by simp, ?_⟩
  simp only [List.mem_append, not_or]
  exact ⟨⟨hfront, hnewline⟩, hback⟩

theorem isReplyLine_deniedReply : IsReplyLine deniedReply :=
  ⟨by decide, ascii "ERROR: Access denied.", by decide, by decide⟩

/-- A row of at most 255 bytes makes a reply of one line. -/
theorem isReplyLine_lawfulReply {key : CStr} (hkey : key = [] ∨ IsWord 63 key) {row : Option CStr}
    (hrow : ∀ value ∈ row, value.length ≤ 255 ∧ newline ∉ value) :
    IsReplyLine (lawfulReply key row) := by
  cases row with
  | none =>
    exact (framed (ascii "ERROR: Key '") (ascii "' not found.") hkey (by decide) (by decide)
      (by decide)).2
  | some value =>
    obtain ⟨hlen, hnewline⟩ := hrow value rfl
    have htext : lawfulReply key (some value) =
        ascii "VALUE: " ++ key ++ ((ascii "=" ++ value) ++ [newline]) := by
      simp [lawfulReply]
    rw [htext]
    refine (framed _ _ hkey (by decide) ?_ ?_).2
    · rw [List.mem_append, not_or]
      exact ⟨by decide, hnewline⟩
    · rw [List.length_append]
      change 7 + (1 + value.length) ≤ 447
      omega

/-! ## One command -/

namespace Tables

variable {b : Tables} (sender : Sender)

theorem exists_reply_of_eq {cmd : Command} {out : Executed} {text full : CStr}
    (hreplies : out.replies = [text]) (htext : text = full ∧ IsReplyLine full)
    (hreply : cmd.Reply full) :
    ∃ text, out.replies = [text] ∧ cmd.Reply text ∧ IsReplyLine text :=
  ⟨full, by rw [hreplies, htext.1], hreply, htext.2⟩

/-- Every command but `PONG` is answered once. -/
theorem exists_reply (hdb : b.db.NewlineFree) {cmd : Command}
    (htopic : cmd.topic = [] ∨ IsWord 63 cmd.topic) (hpong : cmd ≠ .pong) :
    ∃ text, (b.execute sender cmd).replies = [text] ∧ cmd.Reply text ∧ IsReplyLine text := by
  cases cmd with
  | set key value =>
    rw [execute]
    split
    · exact exists_reply_of_eq rfl
        (framed _ (ascii "' updated.") htopic (by decide) (by decide) (by decide)) (Or.inr rfl)
    · exact ⟨_, rfl, Or.inl rfl, isReplyLine_deniedReply⟩
  | get key payload =>
    refine ⟨_, b.replies_execute_get sender (length_topic htopic) payload, ⟨_, rfl⟩, ?_⟩
    refine isReplyLine_lawfulReply htopic fun value hvalue => ?_
    obtain ⟨whole, hwhole, rfl⟩ := Option.map_eq_some_iff.mp hvalue
    refine ⟨List.length_take_le 255 whole, fun hmem => ?_⟩
    exact hdb _ _ whole hwhole (List.mem_of_mem_take hmem)
  | ping => exact ⟨_, rfl, rfl, by decide, ascii "PONG", by decide, by decide⟩
  | pong => exact absurd rfl hpong
  | subscribe topic payload | unsubscribe topic | publish topic payload =>
    rw [execute]
    split
    · exact exists_reply_of_eq rfl (framed _ [] htopic (by decide) (by decide) (by decide))
        (Or.inr rfl)
    · exact ⟨_, rfl, Or.inl rfl, isReplyLine_deniedReply⟩
  | invalid => exact ⟨_, rfl, rfl, by decide, ascii "ERROR: Invalid command.", by decide, by decide⟩

/-- No command brings a newline into the device state if its payload holds none. -/
theorem newlineFree_execute (hdb : b.db.NewlineFree) {cmd : Command}
    (hset : ∀ key value, cmd = .set key value → newline ∉ value) :
    (b.execute sender cmd).tables.db.NewlineFree := by
  by_cases hcmd : ∃ key value, cmd = .set key value
  · obtain ⟨key, value, rfl⟩ := hcmd
    rw [execute]
    split
    · intro host k stored hstored
      simp only [answer, Database.set] at hstored
      split at hstored
      · obtain rfl := Option.some.inj hstored
        exact hset key value rfl
      · exact hdb host k stored hstored
    · exact hdb
  · have hkeep := b.deviceState_execute sender fun key value h => hcmd ⟨key, value, h⟩
    rw [Database.NewlineFree, hkeep]
    exact hdb

/-! ## One line and one task -/

theorem newlineFree_serveLine (hdb : b.db.NewlineFree) (line : CStr) :
    (b.serveLine sender line).tables.db.NewlineFree := by
  rw [serveLine]
  split
  · exact hdb
  · exact newlineFree_execute sender hdb fun _ _ => newline_notMem_of_set

/-- Other lines are not answered. -/
theorem replies_serveLine_of_not {line : CStr} (h : ¬ WantsReply line) :
    (b.serveLine sender line).replies = [] := by
  rw [serveLine]
  split
  · rfl
  next hne =>
    have hpong : parseCommand (messageOf line) = .pong := by
      rw [parseCommand_eq_pong_iff]
      by_contra hword
      exact h ⟨hne, hword⟩
    rw [hpong]
    rfl

/-- A line that wants a reply gets one. -/
theorem exists_reply_serveLine (hdb : b.db.NewlineFree) {line : CStr} (h : WantsReply line) :
    ∃ text, (b.serveLine sender line).replies = [text] ∧ IsReplyTo line text := by
  rw [serveLine, if_neg h.1]
  exact exists_reply sender hdb (parseCommand_topic _) fun hpong =>
    h.2 ((parseCommand_eq_pong_iff _).mp hpong)

/-- The lines of a task are answered in turn. -/
theorem forall₂_serveLines (hdb : b.db.NewlineFree) (lines : List CStr) :
    List.Forall₂ IsReplyTo (lines.filter (WantsReply ·)) (b.serveLines sender lines).replies := by
  induction lines generalizing b with
  | nil => exact .nil
  | cons line lines ih =>
    have hrest := ih (newlineFree_serveLine sender hdb line)
    rw [replies_serveLines_cons]
    by_cases hwants : WantsReply line
    · obtain ⟨text, htext, hreply⟩ := exists_reply_serveLine sender hdb hwants
      rw [htext, List.filter_cons_of_pos (by simpa using hwants)]
      exact .cons hreply hrest
    · rw [replies_serveLine_of_not sender hwants, List.filter_cons_of_neg (by simpa using hwants)]
      exact hrest

end Tables

/-! ## A client -/

/-- The replies to a client over its tasks; each task finds the tables that the other clients
and the tasks before it have left. -/
def repliesOver (sender : Sender) : List (Tables × List UInt8) → ClientBuffer → List CStr
  | [], _ => []
  | (b, chunk) :: tasks, buffer =>
    let served := b.serveTask sender buffer chunk
    served.1.replies ++ repliesOver sender tasks served.2

/-- The replies of a client answer the lines that were taken out of its buffer. -/
theorem forall₂_repliesOver (sender : Sender) (tasks : List (Tables × List UInt8))
    (hdb : ∀ task ∈ tasks, task.1.db.NewlineFree) (buffer : ClientBuffer) :
    List.Forall₂ IsReplyTo
      ((receiveAll (tasks.map Prod.snd) buffer).1.filter (WantsReply ·))
      (repliesOver sender tasks buffer) := by
  induction tasks generalizing buffer with
  | nil => exact .nil
  | cons task tasks ih =>
    rw [List.map_cons, receiveAll, List.filter_append]
    exact List.rel_append
      (Tables.forall₂_serveLines sender (hdb task (List.mem_cons_self ..)) _)
      (ih (fun t ht => hdb t (List.mem_cons_of_mem _ ht)) _)

/-- Reply discipline: a client sends a stream without NUL whose lines have at most 1023 bytes,
cut into the tasks in any way, and every task finds any tables whose values hold no newline. The
lines that want a reply get one each, in their order, and the others none: each reply is a whole
line of at most 511 bytes, and one of the uncut texts of its command. -/
theorem reply_discipline (sender : Sender) (stream : List UInt8) (hnul : 0 ∉ stream)
    (hlines : ∀ l ∈ stream.splitOn newline, l.length ≤ 1023)
    (buffer : ClientBuffer) (hempty : buffer.len = 0) (tasks : List (Tables × List UInt8))
    (hcut : (tasks.map Prod.snd).flatten = stream)
    (hchunks : ∀ chunk ∈ tasks.map Prod.snd, 1 ≤ chunk.length ∧ chunk.length ≤ 1023)
    (hdb : ∀ task ∈ tasks, task.1.db.NewlineFree) :
    List.Forall₂ IsReplyTo ((completeLines stream).filter (WantsReply ·))
      (repliesOver sender tasks buffer) := by
  obtain ⟨hreceived, -⟩ := receiveAll_chunks buffer hempty stream hnul hlines _ hcut hchunks
  rw [← hreceived]
  exact forall₂_repliesOver sender tasks hdb buffer

/-- The tasks of a client that sends a blank line, a `PONG`, an empty line and a `SET`. -/
def blankTasks : List (Tables × List UInt8) :=
  [(setTables, ascii " \nPONG\n\r\nSET mo"), (setTables, ascii "de on\n")]

theorem reply_discipline_blankTasks :
    List.Forall₂ IsReplyTo [ascii " ", ascii "SET mode on"]
      (repliesOver deskSender blankTasks .fresh) := by
  refine reply_discipline deskSender (ascii " \nPONG\n\r\nSET mode on\n") (by decide) (by decide)
    .fresh rfl blankTasks (by decide) (by decide) fun task htask host key value hvalue => ?_
  have hnone : ∀ t ∈ blankTasks, t.1.db.deviceState host key = none := by
    simp [blankTasks, setTables]
  rw [hnone task htask] at hvalue
  cases hvalue

end AdMQ
