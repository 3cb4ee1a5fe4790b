import AdMQ.Broker.Threads.State

/-!
# Lines executed one at a time

What the worker does with a line of its client, as a function of the tables of the
broker: the tables afterwards, the replies that go back to the client, and the
deliveries that a publication attempts. A task is served by serving its lines in
turn, and a run of clients is served request by request.
-/

namespace AdMQ

open Core

/-- What the lines of the clients read and write. -/
structure Tables where
  policy : Policy
  topics : PubSub
  db : Database

/-- What the worker reads of the client whose lines it executes. -/
structure Sender where
  fd : Int
  hostname : CStr
  deriving DecidableEq

/-- What comes of a line. -/
structure Executed where
  tables : Tables
  /-- What is written back to the client, in order. -/
  replies : List CStr
  /-- The deliveries that `pubsub_publish` attempts. -/
  deliveries : List (Int × CStr)

namespace Tables

/-- A line that only reads the tables. -/
def answer (b : Tables) (text : CStr) : Executed := ⟨b, [text], []⟩

/-- The branches of the command chain. -/
def execute (b : Tables) (sender : Sender) : Command → Executed
  | .set key value =>
    if rbacCanSet b.policy sender.hostname key then
      { b with db := b.db.set sender.hostname key value }.answer (updatedReply key)
    else b.answer deniedReply
  | .get key payload =>
    let text := match b.db.get sender.hostname key with
      | some value => valueReply key value
      | none => missingReply key
    { b with db := b.db.logMessage sender.hostname key payload }.answer text
  | .ping => b.answer pongReply
  | .pong => ⟨b, [], []⟩
  | .subscribe topic payload =>
    if rbacCanSubscribe b.policy sender.hostname topic then
      { b with
        db := b.db.logMessage sender.hostname topic payload
        topics := pubsubSubscribe b.topics sender.fd topic }.answer (subscribedReply topic)
    else b.answer deniedReply
  | .unsubscribe topic =>
    if rbacCanUnsubscribe b.policy sender.hostname topic then
      { b with topics := pubsubUnsubscribe b.topics sender.fd topic }.answer
        (unsubscribedReply topic)
    else b.answer deniedReply
  | .publish topic payload =>
    if rbacCanPublish b.policy sender.hostname topic then
      ⟨{ b with db := b.db.logMessage sender.hostname topic payload }, [publishedReply topic],
        pubsubPublish b.topics topic payload⟩
    else b.answer deniedReply
  | .invalid => b.answer invalidReply

/-- One line; nothing happens if it is empty up to its first return character. -/
def serveLine (b : Tables) (sender : Sender) (line : CStr) : Executed :=
  if messageOf line = [] then ⟨b, [], []⟩ else b.execute sender (parseCommand (messageOf line))

/-- The lines of a task in turn. -/
def serveLines (b : Tables) (sender : Sender) : List CStr → Executed
  | [] => ⟨b, [], []⟩
  | line :: lines =>
    let first := b.serveLine sender line
    let rest := first.tables.serveLines sender lines
    ⟨rest.tables, first.replies ++ rest.replies, first.deliveries ++ rest.deliveries⟩

/-- A task: the lines that a chunk completes are served, and the buffer is left. -/
def serveTask (b : Tables) (sender : Sender) (buffer : ClientBuffer) (chunk : List UInt8) :
    Executed × ClientBuffer :=
  (b.serveLines sender (receive buffer chunk).1, (receive buffer chunk).2)

/-- A chunk whose lines are hidden behind a NUL comes to nothing. -/
theorem serveTask_eq_nothing (b : Tables) (sender : Sender) {buffer : ClientBuffer}
    {chunk : List UInt8} (hroom : buffer.len + chunk.length < bufferSize)
    (hnl : newline ∉ cstr (buffer.content ++ chunk)) :
    (b.serveTask sender buffer chunk).1 = ⟨b, [], []⟩ := by
  rw [serveTask, receive_eq_nil hroom hnl]
  rfl

end Tables

/-- A line of some client. -/
structure Request where
  sender : Sender
  line : CStr

namespace Tables

/-- The tables after a request. -/
def step (b : Tables) (q : Request) : Tables := (b.serveLine q.sender q.line).tables

/-- The replies to a request. -/
def replies (b : Tables) (q : Request) : List CStr := (b.serveLine q.sender q.line).replies

/-- The tables after a sequence of requests. -/
def after (b : Tables) (requests : List Request) : Tables := requests.foldl step b

/-- The requests of a run, each with its replies. -/
def transcript (b : Tables) : List Request → List (Request × List CStr)
  | [] => []
  | q :: rest => (q, b.replies q) :: (b.step q).transcript rest

variable (b : Tables) (sender : Sender)

@[simp] theorem replies_serveLines_cons (line : CStr) (lines : List CStr) :
    (b.serveLines sender (line :: lines)).replies =
      (b.serveLine sender line).replies ++
        ((b.serveLine sender line).tables.serveLines sender lines).replies := rfl

@[simp] theorem policy_execute (cmd : Command) :
    (b.execute sender cmd).tables.policy = b.policy := by
  cases cmd with
  | get key payload => rfl
  | ping => rfl
  | pong => rfl
  | invalid => rfl
  | _ =>
    rw [execute]
    split <;> rfl

/-- No line changes the policy. -/
@[simp] theorem policy_serveLine (line : CStr) :
    (b.serveLine sender line).tables.policy = b.policy := by
  rw [serveLine]
  split
  · rfl
  · exact b.policy_execute sender _

theorem transcript_append (requests more : List Request) :
    b.transcript (requests ++ more) =
      b.transcript requests ++ (b.after requests).transcript more := by
  induction requests generalizing b with
  | nil => rfl
  | cons q rest ih => rw [List.cons_append, transcript, transcript, ih, List.cons_append, after,
      after, List.foldl_cons]

end Tables

end AdMQ
