import AdMQ.Agent.StateLine

/-!
# The one-shot mode of the agent

`agent set --key K --value V` and `agent get --key K` send one command and print the
reply. The agent puts its arguments into the command as they are, and the broker
takes the command apart again by lines, return characters and white space. What
comes of a `set` is either the one row that was meant or nothing exactly under a
condition on the two strings; a `get` prints the row exactly if it fits the 255
bytes that the agent reads.
-/

namespace AdMQ

open Core

/-! ## The command line -/

/-- The variables that the argument parser fills. -/
structure Arguments where
  isSet : Bool
  isGet : Bool
  targetKey : CStr
  targetVal : CStr
  deriving DecidableEq

/-- Before the first argument. -/
def Arguments.none : Arguments := ⟨false, false, [], []⟩

/-- The first two comparisons of an iteration. -/
def Arguments.mode (a : Arguments) (arg : CStr) : Arguments :=
  { a with isSet := a.isSet || arg == ascii "set", isGet := a.isGet || arg == ascii "get" }

/-- The loop over `argv[1]`, `argv[2]`, ... The comparison with `--value` looks at `argv[i]` after
`--key` has moved `i` on to its argument. -/
def parseArguments : Arguments → List CStr → Arguments
  | a, [] => a
  | a, [arg] => a.mode arg
  | a, arg :: next :: rest =>
    let a := a.mode arg
    if arg = ascii "--key" then
      let a := { a with targetKey := next.take 63 }
      match next == ascii "--value", rest with
      | true, value :: rest => parseArguments { a with targetVal := value.take 255 } rest
      | _, rest => parseArguments a rest
    else if arg = ascii "--value" then
      parseArguments { a with targetVal := next.take 255 } rest
    else parseArguments a (next :: rest)

/-- What the one-shot mode sends; nothing if an argument is missing. -/
def oneShotMessage (argv : List CStr) : Option CStr :=
  let a := parseArguments .none argv
  if a.isSet ∧ (a.targetKey.length = 0 ∨ a.targetVal.length = 0) then none
  else if a.isGet ∧ a.targetKey.length = 0 then none
  else if a.isSet then
    some ((ascii "SET " ++ a.targetKey ++ ascii " " ++ a.targetVal ++ [newline]).take 511)
  else if a.isGet then some ((ascii "GET " ++ a.targetKey ++ [newline]).take 511)
  else none

/-- `agent set --key K --value V`. -/
def setCommandLine (key value : CStr) : List CStr :=
  [ascii "set", ascii "--key", key, ascii "--value", value]

/-- `agent get --key K`. -/
def getCommandLine (key : CStr) : List CStr := [ascii "get", ascii "--key", key]

/-- A key that looks like the option takes the next argument for the value. -/
def valueTaken (key value : CStr) : CStr := if key = ascii "--value" then ascii "--value" else value

theorem length_valueTaken (key : CStr) {value : CStr}
    (hvalue : 1 ≤ value.length ∧ value.length ≤ 255) :
    1 ≤ (valueTaken key value).length ∧ (valueTaken key value).length ≤ 255 := by
  rw [valueTaken]
  split
  · decide
  · exact hvalue

theorem parseArguments_mode (a : Arguments) {arg : CStr} (hkey : arg ≠ ascii "--key")
    (hvalue : arg ≠ ascii "--value") (next : CStr) (rest : List CStr) :
    parseArguments a (arg :: next :: rest) = parseArguments (a.mode arg) (next :: rest) := by
  rw [parseArguments, if_neg hkey, if_neg hvalue]

theorem parseArguments_key (a : Arguments) {next : CStr} (h : next ≠ ascii "--value")
    (rest : List CStr) :
    parseArguments a (ascii "--key" :: next :: rest) =
      parseArguments { a.mode (ascii "--key") with targetKey := next.take 63 } rest := by
  have hne : (next == ascii "--value") = false := by simpa using h
  rw [parseArguments, if_pos rfl, hne]

theorem parseArguments_set {key value : CStr} (hkey : key.length ≤ 63)
    (hvalue : value.length ≤ 255) :
    ∃ isGet, parseArguments .none (setCommandLine key value) =
      ⟨true, isGet, key, valueTaken key value⟩ := by
  by_cases h : key = ascii "--value"
  · subst h
    exact ⟨_, rfl⟩
  · refine ⟨false, ?_⟩
    rw [setCommandLine, parseArguments_mode _ (by decide) (by decide), parseArguments_key _ h,
      valueTaken, if_neg h, List.take_of_length_le hkey, parseArguments, if_neg (by decide),
      if_pos rfl, List.take_of_length_le hvalue]
    rfl

theorem parseArguments_get {key : CStr} (hkey : key.length ≤ 63) :
    parseArguments .none (getCommandLine key) = ⟨false, true, key, []⟩ := by
  rw [getCommandLine, parseArguments_mode _ (by decide) (by decide)]
  by_cases h : key = ascii "--value"
  · subst h
    rfl
  · rw [parseArguments_key _ h, List.take_of_length_le hkey]
    rfl

variable {key value : CStr}

/-- What `agent set` sends. -/
theorem oneShotMessage_set (hkey : 1 ≤ key.length ∧ key.length ≤ 63)
    (hvalue : 1 ≤ value.length ∧ value.length ≤ 255) :
    oneShotMessage (setCommandLine key value) =
      some (ascii "SET " ++ (key ++ ascii " " ++ valueTaken key value) ++ [newline]) := by
  obtain ⟨isGet, hparse⟩ := parseArguments_set hkey.2 hvalue.2
  have htaken := length_valueTaken key hvalue
  have hfits : (ascii "SET " ++ key ++ ascii " " ++ valueTaken key value ++ [newline]).length ≤
      511 := by
    have hset : (ascii "SET ").length = 4 := rfl
    have hblank : (ascii " ").length = 1 := rfl
    simp only [List.length_append, List.length_singleton]
    omega
  have hkey0 : ¬ key.length = 0 := by omega
  have hvalue0 : ¬ (valueTaken key value).length = 0 := by omega
  simp only [oneShotMessage, hparse, hkey0, hvalue0, or_self, and_false, if_false, if_true,
    List.take_of_length_le hfits]
  simp

/-- What `agent get` sends. -/
theorem oneShotMessage_get (hkey : 1 ≤ key.length ∧ key.length ≤ 63) :
    oneShotMessage (getCommandLine key) = some (ascii "GET " ++ key ++ [newline]) := by
  have hfits : (ascii "GET " ++ key ++ [newline]).length ≤ 511 := by
    have hget : (ascii "GET ").length = 4 := rfl
    simp only [List.length_append, List.length_singleton]
    omega
  have hkey0 : ¬ key.length = 0 := by omega
  simp only [oneShotMessage, parseArguments_get hkey.2, hkey0, and_false, if_false, if_true,
    List.take_of_length_le hfits, Bool.false_eq_true, false_and]

example : parseArguments .none (setCommandLine (ascii "mode") (ascii "on")) =
    ⟨true, false, ascii "mode", ascii "on"⟩ := by decide
example : parseArguments .none (setCommandLine (ascii "--value") (ascii "on")) =
    ⟨true, false, ascii "--value", ascii "--value"⟩ := by decide

/-! ## What comes of `agent set` -/

/-- The lines are one command, and it stores the row or changes nothing. -/
structure StoresOnce (b : Tables) (sender : Sender) (key value : CStr) (lines : List CStr) :
    Prop where
  once : (lines.filter (messageOf · ≠ [])).length = 1
  tables : (b.serveLines sender lines).tables = b ∨
    (b.serveLines sender lines).tables = { b with db := b.db.set sender.hostname key value }

/-- The policy of `setTables` lets every client set everything. -/
theorem rbacCanSet_setTables (key : CStr) :
    rbacCanSet setTables.policy deskSender.hostname key = true := by
  rfl

/-- In every state of the broker a `SET` line stores the row or changes nothing, exactly if it is
read as this row or not at all. -/
theorem tables_execute_iff {text : CStr} (hnewline : newline ∉ text) :
    (∀ (b : Tables) sender,
      (b.execute sender (parseCommand (ascii "SET " ++ text))).tables = b ∨
      (b.execute sender (parseCommand (ascii "SET " ++ text))).tables =
        { b with db := b.db.set sender.hostname key value }) ↔
      parseCommand (ascii "SET " ++ text) = .set key value ∨ OneItem text := by
  rw [← parseCommand_set_invalid_iff hnewline]
  constructor
  · intro h
    have htables := h setTables deskSender
    rw [parseCommand_set] at htables ⊢
    split at htables
    · exact Or.inr rfl
    next topic rest hscan =>
      split at htables
      · exact Or.inr rfl
      next payload left huntil =>
        refine Or.inl ?_
        -- The row that was stored tells what the line was read as.
        rw [Tables.execute, if_pos (rbacCanSet_setTables topic)] at htables
        rcases htables with heq | heq
        · have hstored := congrArg (fun b => b.db.deviceState deskSender.hostname topic) heq
          simp [Tables.answer, Database.set, setTables] at hstored
        · have hstored := congrArg (fun b => b.db.deviceState deskSender.hostname topic) heq
          simp only [Tables.answer, Database.set, setTables, and_self, if_true, true_and] at hstored
          split at hstored
          next hkey => rw [hkey, Option.some.inj hstored]
          · cases hstored
  · rintro (h | h) b sender
    · rw [h, Tables.execute]
      split
      · exact Or.inr rfl
      · exact Or.inl rfl
    · rw [h]
      exact Or.inl rfl

/-- A `SET` message of any content, in every state of the broker. -/
theorem storesOnce_iff (text : CStr) :
    (∀ b sender,
      StoresOnce b sender key value (completeLines (ascii "SET " ++ text ++ [newline]))) ↔
      SingleLine text ∧
        (parseCommand (ascii "SET " ++ cutLine text) = .set key value ∨
          OneItem (cutLine text)) := by
  rw [← tables_execute_iff (newline_notMem_cutLine text)]
  constructor
  · intro h
    have hsingle := (once_iff text).mp (h setTables deskSender).once
    refine ⟨hsingle, fun b sender => ?_⟩
    rw [← serveLines_set b sender hsingle]
    exact (h b sender).tables
  · rintro ⟨hsingle, htables⟩ b sender
    refine ⟨(once_iff text).mpr hsingle, ?_⟩
    rw [serveLines_set b sender hsingle]
    exact htables b sender

/-- A message that fits the line buffer gives the same lines however it is cut into reads. -/
theorem forall_chunks_iff {message : CStr} (hlen : 1 ≤ message.length ∧ message.length ≤ 1023)
    (hnul : 0 ∉ message) (P : List (List UInt8) → Prop) :
    (∀ chunks : List (List UInt8), some message = some chunks.flatten →
      (∀ chunk ∈ chunks, 1 ≤ chunk.length ∧ chunk.length ≤ 1023) →
      P (receiveAll chunks .fresh).1) ↔ P (completeLines message) := by
  have hlines : ∀ chunks : List (List UInt8), some message = some chunks.flatten →
      (∀ chunk ∈ chunks, 1 ≤ chunk.length ∧ chunk.length ≤ 1023) →
      (receiveAll chunks .fresh).1 = completeLines message := by
    intro chunks hcut hchunks
    have hfit : ∀ l ∈ message.splitOn newline, l.length ≤ 1023 :=
      fun l hl => (length_le_of_mem_splitOn hl).trans hlen.2
    exact (receiveAll_chunks .fresh rfl message hnul hfit chunks
      (Option.some.inj hcut).symm hchunks).1
  constructor
  · intro h
    have hcut : some message = some [message].flatten := by rw [List.flatten_singleton]
    have hchunk := List.forall_mem_singleton
      (p := fun chunk : List UInt8 => 1 ≤ chunk.length ∧ chunk.length ≤ 1023) |>.mpr hlen
    rw [← hlines [message] hcut hchunk]
    exact h [message] hcut hchunk
  · intro h chunks hcut hchunks
    rw [hlines chunks hcut hchunks]
    exact h

theorem nul_notMem_valueTaken (key : CStr) (h : 0 ∉ value) : 0 ∉ valueTaken key value := by
  rw [valueTaken]
  split
  · decide
  · exact h

/-- What `agent set` sends fits, and holds no NUL. -/
theorem message_set (hkey : 1 ≤ key.length ∧ key.length ≤ 63)
    (hvalue : 1 ≤ value.length ∧ value.length ≤ 255) (hnulkey : 0 ∉ key) (hnulvalue : 0 ∉ value) :
    let message := ascii "SET " ++ (key ++ ascii " " ++ valueTaken key value) ++ [newline]
    (1 ≤ message.length ∧ message.length ≤ 1023) ∧ 0 ∉ message := by
  have htaken := length_valueTaken key hvalue
  have hset : (ascii "SET ").length = 4 := rfl
  have hblank : (ascii " ").length = 1 := rfl
  refine ⟨?_, ?_⟩
  · simp only [List.length_append, List.length_singleton]
    omega
  · have hnul := nul_notMem_valueTaken key hnulvalue
    simp only [List.mem_append, not_or]
    exact ⟨⟨by decide, ⟨hnulkey, by decide⟩, hnul⟩, by decide⟩

/-- `agent set --key K --value V` is one faithful `SET`: whatever the broker's state and however
the stream is cut, one command is executed, and it stores the value under the key for the host or
changes nothing. This holds exactly if the key does not hide the option `--value`, every line but
the first is empty, and the first is read as this key and value or holds no second item. -/
theorem oneShot_set_faithful_iff (key value : CStr) (hkey : 1 ≤ key.length ∧ key.length ≤ 63)
    (hvalue : 1 ≤ value.length ∧ value.length ≤ 255) (hnulkey : 0 ∉ key) (hnulvalue : 0 ∉ value) :
    (∀ (b : Tables) (sender : Sender) (chunks : List (List UInt8)),
      oneShotMessage (setCommandLine key value) = some chunks.flatten →
      (∀ chunk ∈ chunks, 1 ≤ chunk.length ∧ chunk.length ≤ 1023) →
      StoresOnce b sender key value (receiveAll chunks .fresh).1) ↔
    (key = ascii "--value" → value = ascii "--value") ∧
      SingleLine (key ++ ascii " " ++ value) ∧
      (IsWord 63 key ∧ PlainValue value ∨ OneItem (cutLine (key ++ ascii " " ++ value))) := by
  obtain ⟨hlen, hnul⟩ := message_set hkey hvalue hnulkey hnulvalue
  simp only [oneShotMessage_set hkey hvalue, forall_chunks_iff hlen hnul]
  rw [storesOnce_iff]
  by_cases hhides : key = ascii "--value" ∧ value ≠ ascii "--value"
  · obtain ⟨rfl, hne⟩ := hhides
    refine iff_of_false ?_ fun h => hne (h.1 rfl)
    -- The agent takes the option for the value.
    rw [valueTaken, if_pos rfl]
    have hread : parseCommand (ascii "SET " ++ cutLine (ascii "--value" ++ ascii " " ++
        ascii "--value")) = .set (ascii "--value") (ascii "--value") := by
      decide
    rw [← parseCommand_set_invalid_iff (newline_notMem_cutLine _), hread]
    rintro ⟨-, hset | hone⟩
    · exact hne (Command.set.inj hset).2.symm
    · cases hone
  · have htaken : valueTaken key value = value := by
      rw [valueTaken]
      split
      next hoption => exact (not_not.mp fun hne => hhides ⟨hoption, hne⟩).symm
      · rfl
    have hoption : key = ascii "--value" → value = ascii "--value" :=
      fun h => not_not.mp fun hne => hhides ⟨h, hne⟩
    rw [htaken, parseCommand_set_eq_iff hvalue]
    exact ⟨fun h => ⟨hoption, h⟩, fun h => h.2⟩

theorem oneShot_set_faithful_iff_mode :
    oneShotMessage (setCommandLine (ascii "mode") (ascii "on")) = some (ascii "SET mode on\n") ∧
    StoresOnce setTables deskSender (ascii "mode") (ascii "on")
      (receiveAll [ascii "SET mo", ascii "de on\n"] .fresh).1 :=
  ⟨by decide,
    (oneShot_set_faithful_iff (ascii "mode") (ascii "on") (by decide) (by decide) (by decide)
      (by decide)).mpr
      ⟨by decide, singleLine_of_plain (by decide) (by decide), Or.inl ⟨by decide, by decide⟩⟩
      setTables deskSender [ascii "SET mo", ascii "de on\n"] (by decide) (by decide)⟩

/-- A value with a second command in it. -/
def injectedValue : CStr := ascii "on\nSET alarm off"

/-- A value with a line break is executed as two commands, and the second stores another row. -/
theorem not_storesOnce_injectedValue :
    oneShotMessage (setCommandLine (ascii "mode") injectedValue) =
      some (ascii "SET mode on\nSET alarm off\n") ∧
    (receiveAll [ascii "SET mode on\nSET alarm off\n"] .fresh).1 =
      [ascii "SET mode on", ascii "SET alarm off"] ∧
    ¬ StoresOnce setTables deskSender (ascii "mode") injectedValue
      [ascii "SET mode on", ascii "SET alarm off"] ∧
    (setTables.serveLines deskSender
      [ascii "SET mode on", ascii "SET alarm off"]).tables.db.deviceState (ascii "desk")
      (ascii "alarm") = some (ascii "off") := by
  exact ⟨by decide, by decide, fun h => absurd h.once (by decide), by decide +kernel⟩

/-! ## What `agent get` prints -/

/-- The one read of a reply: `ack_buf` takes at most 255 bytes of the first. -/
def acknowledgement (replies : List CStr) : CStr := cstr ((replies.head?.getD []).take 255)

/-- A run of the one-shot mode on a new connection: what the broker holds then, and what the agent
prints. -/
def oneShot (b : Tables) (sender : Sender) (argv : List CStr) : Option (Tables × CStr) :=
  (oneShotMessage argv).map fun message =>
    let served := (b.serveTask sender .fresh message).1
    (served.tables, acknowledgement served.replies)

theorem receive_fresh {message : CStr} (hlen : message.length ≤ 1023) (hnul : 0 ∉ message) :
    (receive .fresh message).1 = completeLines message :=
  (receive_content (b := .fresh) (Nat.zero_le _) hlen hnul fun _ hl =>
    (length_le_of_mem_splitOn (List.dropLast_subset _ hl)).trans hlen).1

theorem plainValue_valueTaken (key : CStr) (h : PlainValue value) :
    PlainValue (valueTaken key value) := by
  rw [valueTaken]
  split
  · decide
  · exact h

theorem isWord_length (h : IsWord 63 key) : 1 ≤ key.length ∧ key.length ≤ 63 :=
  ⟨List.length_pos_iff.mpr h.ne_nil, h.length_le⟩

/-- `agent set` with a key and a value that are read as they are. -/
theorem oneShot_set (b : Tables) (sender : Sender) (hkey : IsWord 63 key)
    (hvalue : 1 ≤ value.length ∧ value.length ≤ 255) (hplain : PlainValue value)
    (hnulkey : 0 ∉ key) (hnulvalue : 0 ∉ value) :
    oneShot b sender (setCommandLine key value) =
      some ((b.execute sender (.set key (valueTaken key value))).tables,
        acknowledgement (b.execute sender (.set key (valueTaken key value))).replies) := by
  have hlength := isWord_length hkey
  obtain ⟨hlen, hnul⟩ := message_set hlength hvalue hnulkey hnulvalue
  have htaken := plainValue_valueTaken key hplain
  have hset := (parseCommand_set_eq_iff (length_valueTaken key hvalue)).mpr ⟨hkey, htaken⟩
  rw [oneShot, oneShotMessage_set hlength hvalue, Option.map_some, Tables.serveTask]
  simp only [receive_fresh hlen.2 hnul, serveLines_set _ _ (singleLine_of_plain hkey htaken), hset]

/-- `agent get` prints what fits its buffer of the row's answer. -/
theorem oneShot_get (b : Tables) (sender : Sender) (hkey : IsWord 63 key) (hnulkey : 0 ∉ key) :
    (oneShot b sender (getCommandLine key)).map Prod.snd =
      some (acknowledgement
        [lawfulReply key ((b.db.deviceState sender.hostname key).map (·.take 255))]) := by
  have hlength := isWord_length hkey
  have hlen : (ascii "GET " ++ key ++ [newline]).length ≤ 1023 := by
    have hget : (ascii "GET ").length = 4 := rfl
    simp only [List.length_append, List.length_singleton]
    omega
  have hnul : 0 ∉ ascii "GET " ++ key ++ [newline] := by
    simp only [List.mem_append, not_or]
    exact ⟨⟨by decide, hnulkey⟩, by decide⟩
  have hnewline : newline ∉ ascii "GET " ++ key := by
    rw [List.mem_append, not_or]
    exact ⟨by decide, hkey.notMem (by decide)⟩
  have hreturn : byte '\r' ∉ ascii "GET " ++ key := by
    rw [List.mem_append, not_or]
    exact ⟨by decide, hkey.notMem (by decide)⟩
  have hline : messageOf (ascii "GET " ++ key) = ascii "GET " ++ key :=
    List.takeWhile_eq_self_iff.mpr (bne_of_notMem hreturn)
  have hcommand : parseCommand (messageOf (ascii "GET " ++ key)) = .get key [] := by
    rw [hline, parseCommand_get hkey]
  rw [oneShot, oneShotMessage_get hlength, Option.map_some, Tables.serveTask]
  simp only [receive_fresh hlen hnul, completeLines_concat, List.splitOn_eq_singleton hnewline,
    Tables.serveLines, b.replies_get sender hcommand, List.append_nil, Option.map_some]

theorem acknowledgement_updatedReply (key : CStr) :
    ascii "SUCCESS" <+: acknowledgement [updatedReply key] := ⟨_, rfl⟩

theorem not_acknowledgement_deniedReply :
    ¬ ascii "SUCCESS" <+: acknowledgement [deniedReply] := by decide

/-- After a success the row is the value that the agent took. -/
theorem deviceState_oneShot_set {b b₁ : Tables} {sender : Sender} {text : CStr}
    (hkey : IsWord 63 key) (hvalue : 1 ≤ value.length ∧ value.length ≤ 255)
    (hplain : PlainValue value) (hnulkey : 0 ∉ key) (hnulvalue : 0 ∉ value)
    (hset : oneShot b sender (setCommandLine key value) = some (b₁, text))
    (hack : ascii "SUCCESS" <+: text) :
    b₁.db.deviceState sender.hostname key = some (valueTaken key value) := by
  rw [oneShot_set b sender hkey hvalue hplain hnulkey hnulvalue] at hset
  obtain ⟨rfl, rfl⟩ := Prod.mk.inj (Option.some.inj hset)
  rw [Tables.execute] at hack ⊢
  split at hack
  next hcan => simp [hcan, Tables.answer, Database.set]
  · exact absurd hack not_acknowledgement_deniedReply

/-- A cut of a line ends with the line break only if nothing is cut. -/
theorem take_line_iff {s t : CStr} (hs : newline ∉ s) (n : Nat) :
    (s ++ [newline]).take n = t ++ [newline] ↔ t.length + 1 ≤ n ∧ t = s := by
  by_cases hn : s.length + 1 ≤ n
  · rw [List.take_of_length_le (by simpa using hn), List.append_cancel_right_eq]
    constructor
    · rintro rfl
      exact ⟨hn, rfl⟩
    · exact fun h => h.2.symm
  · rw [List.take_append_of_le_length (by omega)]
    refine iff_of_false ?_ ?_
    · intro h
      have hmem : newline ∈ s.take n := by simp [h]
      exact hs (List.mem_of_mem_take hmem)
    · rintro ⟨hlen, rfl⟩
      exact hn hlen

/-- The answer with a value is printed as it is exactly if it fits the agent's buffer. -/
theorem acknowledgement_lawfulReply_iff (hkey : IsWord 63 key) (hnulkey : 0 ∉ key) {taken : CStr}
    (hplain : PlainValue taken) (hnul : 0 ∉ taken) (hlen : taken.length ≤ 255) (value : CStr) :
    acknowledgement [lawfulReply key ((some taken).map (·.take 255))] =
        ascii "VALUE: " ++ key ++ ascii "=" ++ value ++ [newline] ↔
      key.length + value.length ≤ 246 ∧ value = taken := by
  have hnulreply : 0 ∉ lawfulReply key (some taken) := by
    simp only [lawfulReply, List.mem_append, not_or]
    exact ⟨⟨⟨⟨by decide, hnulkey⟩, by decide⟩, hnul⟩, by decide⟩
  have hhead : (ascii "VALUE: " ++ key ++ ascii "=").length = key.length + 8 := by
    simp [ascii]
  have hprinted : acknowledgement [lawfulReply key ((some taken).map (·.take 255))] =
      ascii "VALUE: " ++ key ++ ascii "=" ++ (taken ++ [newline]).take (247 - key.length) := by
    have hfits := hkey.length_le
    rw [Option.map_some, List.take_of_length_le hlen, acknowledgement, List.head?_cons,
      Option.getD_some, cstr_eq_self fun h => hnulreply (List.mem_of_mem_take h), lawfulReply,
      List.append_assoc, List.take_append, List.take_of_length_le (by omega), hhead,
      show 255 - (key.length + 8) = 247 - key.length by omega]
  rw [hprinted, List.append_assoc _ value, List.append_cancel_left_eq,
    take_line_iff hplain.newline_value]
  have hfits := hkey.length_le
  exact and_congr_left fun _ => by omega

/-- `agent get` prints what `agent set` stored: after a `set` that was acknowledged with a success,
as long as the row is not set again, a `get` of the same host prints `VALUE: key=value` with a line
break. This holds exactly if that text fits the agent's buffer of 255 bytes, and the key does not
hide the option `--value`. -/
theorem oneShot_get_set_iff (key value : CStr) (hkey : IsWord 63 key) (hnulkey : 0 ∉ key)
    (hvalue : 1 ≤ value.length ∧ value.length ≤ 255) (hnulvalue : 0 ∉ value)
    (hplain : PlainValue value) :
    (∀ (b b₁ b₂ : Tables) (sender sender₂ : Sender) (text : CStr),
      oneShot b sender (setCommandLine key value) = some (b₁, text) →
      ascii "SUCCESS" <+: text →
      sender₂.hostname = sender.hostname →
      b₂.db.deviceState sender.hostname key = b₁.db.deviceState sender.hostname key →
      (oneShot b₂ sender₂ (getCommandLine key)).map Prod.snd =
        some (ascii "VALUE: " ++ key ++ ascii "=" ++ value ++ [newline])) ↔
    key.length + value.length ≤ 246 ∧ (key = ascii "--value" → value = ascii "--value") := by
  have htaken : value = valueTaken key value ↔
      (key = ascii "--value" → value = ascii "--value") := by
    rw [valueTaken]
    split <;> simp [*]
  have hprints := acknowledgement_lawfulReply_iff hkey hnulkey (plainValue_valueTaken key hplain)
    (nul_notMem_valueTaken key hnulvalue) (length_valueTaken key hvalue).2 value
  rw [← htaken, ← hprints]
  constructor
  · intro h
    have hset := oneShot_set setTables deskSender hkey hvalue hplain hnulkey hnulvalue
    rw [Tables.execute, if_pos (rbacCanSet_setTables key)] at hset
    have hack := acknowledgement_updatedReply key
    have hget := h _ _ _ _ deskSender _ hset hack rfl rfl
    rw [oneShot_get _ _ hkey hnulkey,
      deviceState_oneShot_set hkey hvalue hplain hnulkey hnulvalue hset hack] at hget
    exact Option.some.inj hget
  · intro h b b₁ b₂ sender sender₂ text hset hack hhost hrow
    rw [oneShot_get b₂ sender₂ hkey hnulkey, hhost, hrow,
      deviceState_oneShot_set hkey hvalue hplain hnulkey hnulvalue hset hack, h]

theorem oneShot_get_set_iff_mode :
    ∃ b text, oneShot setTables deskSender (setCommandLine (ascii "mode") (ascii "on")) =
        some (b, text) ∧ ascii "SUCCESS" <+: text ∧
      (oneShot b deskSender (getCommandLine (ascii "mode"))).map Prod.snd =
        some (ascii "VALUE: " ++ ascii "mode" ++ ascii "=" ++ ascii "on" ++ [newline]) := by
  have hrun : (oneShot setTables deskSender (setCommandLine (ascii "mode") (ascii "on"))).map
      Prod.snd = some (ascii "SUCCESS: State 'mode' updated.\n") := by decide +kernel
  obtain ⟨⟨b, text⟩, hset, rfl⟩ := Option.map_eq_some_iff.mp hrun
  have hack : ascii "SUCCESS" <+: ascii "SUCCESS: State 'mode' updated.\n" := by decide
  refine ⟨b, _, hset, hack, ?_⟩
  exact (oneShot_get_set_iff (ascii "mode") (ascii "on") (by decide) (by decide) (by decide)
    (by decide) (by decide)).mpr (by decide) _ _ b _ deskSender _ hset hack rfl rfl

/-- As long a value as the agent accepts. -/
def longestValue : CStr := List.replicate 255 (byte 'x')

/-- The row holds the value, but the agent prints 255 bytes of the answer: 12 bytes of the value and
the line break are missing. -/
theorem cut_get_longestValue :
    (oneShot setTables deskSender (setCommandLine (ascii "mode") longestValue)).map (fun run =>
      (run.2, run.1.db.deviceState (ascii "desk") (ascii "mode"),
        (oneShot run.1 deskSender (getCommandLine (ascii "mode"))).map Prod.snd)) =
      some (ascii "SUCCESS: State 'mode' updated.\n", some longestValue,
        some (ascii "VALUE: mode=" ++ longestValue.take 243)) := by
  decide +kernel

end AdMQ
