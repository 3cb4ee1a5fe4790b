import Mathlib.Data.List.TakeDrop
import AdMQ.Broker.Worker.Command

/-!
# The words of a line and the fields of a command

A line falls into its first word, its second word and what remains behind the white
space after that. The command word is compared whole, because no command is as long
as its field. The topic and the payload are cut to their fields: a longer second word
is split between them, and a longer remainder loses its end.
-/

namespace AdMQ

open Core

/-- The first word of a message. -/
def firstWord (message : CStr) : CStr :=
  (message.dropWhile isspace).takeWhile fun b => !isspace b

/-- What follows the first word of a message. -/
def afterWord (message : CStr) : CStr :=
  (message.dropWhile isspace).dropWhile fun b => !isspace b

/-- The second word of a message. -/
def secondWord (message : CStr) : CStr := firstWord (afterWord message)

/-- What follows the white space behind the second word. -/
def remainder (message : CStr) : CStr := (afterWord (afterWord message)).dropWhile isspace

/-! ## Conversions of words -/

variable {w : Nat} {s : CStr}

theorem firstWord_append_afterWord (s : CStr) : firstWord s ++ afterWord s = s.dropWhile isspace :=
  List.takeWhile_append_dropWhile

/-- Without a word a conversion fails. -/
theorem scanWord_eq_none (h : firstWord s = []) : scanWord w s = none := by
  rw [firstWord] at h
  simp [scanWord, h]

/-- A word that fits its field is converted whole. -/
theorem scanWord_eq_firstWord (hne : firstWord s ≠ []) (hlen : (firstWord s).length ≤ w) :
    scanWord w s = some (firstWord s, afterWord s) := by
  have htake : ((s.dropWhile isspace).takeWhile fun b => !isspace b).take w = firstWord s :=
    List.take_of_length_le hlen
  have hdrop : (s.dropWhile isspace).drop (firstWord s).length = afterWord s := by
    rw [← firstWord_append_afterWord, List.drop_left]
  simp only [scanWord, htake, hne, if_false, hdrop]

/-- Of a longer word the rest is left, in front of everything else. -/
theorem scanWord_eq_take (hw : 0 < w) (hlen : w < (firstWord s).length) :
    scanWord w s = some ((firstWord s).take w, (firstWord s).drop w ++ afterWord s) := by
  have hne : (firstWord s).take w ≠ [] := by
    intro hnil
    have hzero := congrArg List.length hnil
    rw [List.length_take, List.length_nil] at hzero
    omega
  have hcount : ((firstWord s).take w).length = w := List.length_take_of_le (by omega)
  have hdrop : (s.dropWhile isspace).drop w = (firstWord s).drop w ++ afterWord s := by
    rw [← firstWord_append_afterWord, List.drop_append_of_le_length (by omega)]
  simp only [scanWord]
  rw [← firstWord, if_neg hne, hcount, hdrop]

theorem not_isspace_firstWord {b : UInt8} (h : b ∈ firstWord s) : isspace b = false := by
  simpa using List.mem_takeWhile_imp h

theorem mem_of_mem_afterWord {b : UInt8} (h : b ∈ afterWord s) : b ∈ s :=
  (List.dropWhile_sublist _).subset ((List.dropWhile_sublist _).subset h)

theorem mem_of_mem_remainder {b : UInt8} (h : b ∈ remainder s) : b ∈ s :=
  mem_of_mem_afterWord (mem_of_mem_afterWord ((List.dropWhile_sublist _).subset h))

/-- Without a first word there is only white space. -/
theorem dropWhile_isspace_of_firstWord (h : firstWord s = []) : s.dropWhile isspace = [] := by
  cases hs : s.dropWhile isspace with
  | nil => rfl
  | cons b rest =>
    have hb : isspace b = false := head?_dropWhile_isspace _ b (by rw [hs]; rfl)
    rw [firstWord, hs, List.takeWhile_cons_of_pos (by simp [hb])] at h
    cases h

/-- Without a second word nothing remains. -/
theorem remainder_eq_nil (h : secondWord s = []) : remainder s = [] := by
  rw [remainder, afterWord, dropWhile_isspace_of_firstWord h]
  rfl

/-! ## The fields of a line -/

/-- The command word is the first word, cut to its field. -/
theorem command_scanMessage (message : CStr) :
    (scanMessage message).command = (firstWord message).take 31 := by
  rw [scanMessage]
  split
  next hnone =>
    simp only [scanWord, ite_eq_left_iff, reduceCtorEq, imp_false, not_not] at hnone
    exact hnone.symm
  next command rest hsome =>
    simp only [scanWord] at hsome
    split at hsome
    · cases hsome
    · obtain ⟨hcommand, -⟩ := Prod.mk.inj (Option.some.inj hsome)
      split
      · exact hcommand.symm
      · split <;> exact hcommand.symm

/-- A name that is shorter than the field is found only whole. -/
theorem command_eq_iff {name : CStr} (hname : name.length < 31) (message : CStr) :
    (scanMessage message).command = name ↔ firstWord message = name := by
  rw [command_scanMessage]
  constructor
  · intro h
    have hlen := congrArg List.length h
    rw [List.length_take] at hlen
    rwa [List.take_of_length_le (by omega)] at h
  · rintro rfl
    exact List.take_of_length_le (Nat.le_of_lt hname)

/-- The conversions of a line, by the lengths of its words. -/
theorem scanMessage_cases {message : CStr} (hne : firstWord message ≠ [])
    (hlen : (firstWord message).length ≤ 31) (hnewline : newline ∉ message) :
    (secondWord message = [] ∧ scanMessage message = ⟨1, firstWord message, [], []⟩) ∨
      (secondWord message ≠ [] ∧ (secondWord message).length ≤ 63 ∧ remainder message = [] ∧
        scanMessage message = ⟨2, firstWord message, secondWord message, []⟩) ∨
      (secondWord message ≠ [] ∧ (secondWord message).length ≤ 63 ∧ remainder message ≠ [] ∧
        scanMessage message =
          ⟨3, firstWord message, secondWord message, (remainder message).take 799⟩) ∨
      (63 < (secondWord message).length ∧ ∃ payload,
        scanMessage message = ⟨3, firstWord message, (secondWord message).take 63, payload⟩) := by
  rw [scanMessage, scanWord_eq_firstWord hne hlen]
  simp only
  by_cases hsecond : secondWord message = []
  · exact Or.inl ⟨hsecond, by rw [scanWord_eq_none hsecond]⟩
  by_cases hfits : (secondWord message).length ≤ 63
  · rw [scanWord_eq_firstWord hsecond hfits]
    have hrest : (afterWord (afterWord message)).dropWhile isspace = remainder message := rfl
    simp only [hrest]
    by_cases hremainder : remainder message = []
    · refine Or.inr (Or.inl ⟨hsecond, hfits, hremainder, ?_⟩)
      rw [hremainder, scanUntil_nil]
      rfl
    · refine Or.inr (Or.inr (Or.inl ⟨hsecond, hfits, hremainder, ?_⟩))
      have htake : (remainder message).takeWhile (· != newline) = remainder message :=
        List.takeWhile_eq_self_iff.mpr
          (bne_of_notMem fun hmem => hnewline (mem_of_mem_remainder hmem))
      have hcut : (remainder message).take 799 ≠ [] := by
        intro hnil
        rw [List.take_eq_nil_iff] at hnil
        exact hnil.elim (by decide) hremainder
      simp only [scanUntil, htake, hcut, if_false]
      rfl
  · have hexceeds : 63 < (secondWord message).length := by omega
    refine Or.inr (Or.inr (Or.inr ⟨hexceeds, ?_⟩))
    rw [scanWord_eq_take (by decide) hexceeds]
    -- what is left of the second word is where the payload begins
    obtain ⟨b, tail, htail⟩ := List.exists_cons_of_ne_nil
      (show (secondWord message).drop 63 ≠ [] by
        rw [Ne, List.drop_eq_nil_iff]
        omega)
    have hb : isspace b = false :=
      not_isspace_firstWord (List.mem_of_mem_drop (htail ▸ List.mem_cons_self ..))
    have hstart : b ≠ newline := by
      rintro rfl
      cases hb
    have hpayload (rest : CStr) : ∃ payload, scanUntil 799 newline
        ((b :: rest).dropWhile isspace) = some payload := by
      simp [scanUntil, hb, hstart]
    obtain ⟨payload, hscan⟩ := hpayload (tail ++ afterWord (afterWord message))
    refine ⟨payload.1, ?_⟩
    have hword : firstWord (afterWord message) = secondWord message := rfl
    simp only [hword, htail, List.cons_append, hscan]

/-! ## The fields that a command uses -/

/-- The commands that use a topic or key. -/
def topicCommands : List CStr :=
  [ascii "SET", ascii "PUBLISH", ascii "SUBSCRIBE", ascii "UNSUBSCRIBE"]

/-- The commands that use a payload as well. -/
def payloadCommands : List CStr := [ascii "SET", ascii "PUBLISH"]

/-- The fields that a command uses are a given word and a given rest of the line. -/
def Command.Takes : Command → CStr → CStr → Prop
  | .set key value, word, rest => key = word ∧ value = rest
  | .publish topic payload, word, rest => topic = word ∧ payload = rest
  | .subscribe topic _, word, _ => topic = word
  | .unsubscribe topic, word, _ => topic = word
  | .get _ _, _, _ => True
  | .ping, _, _ => True
  | .pong, _, _ => True
  | .invalid, _, _ => True

theorem mem_topicCommands {name : CStr} : name ∈ topicCommands ↔
    name = ascii "SET" ∨ name = ascii "PUBLISH" ∨ name = ascii "SUBSCRIBE" ∨
      name = ascii "UNSUBSCRIBE" := by
  simp [topicCommands]

/-- Other commands use no field. -/
theorem Scanned.takes_of_notMem {m : Scanned} (h : m.command ∉ topicCommands) (word rest : CStr) :
    m.branch.Takes word rest := by
  rw [mem_topicCommands] at h
  simp only [not_or] at h
  obtain ⟨hset, hpublish, hsubscribe, hunsubscribe⟩ := h
  simp only [branch, hset, hpublish, hsubscribe, hunsubscribe, and_false, if_false]
  split_ifs <;> trivial

/-- Without a topic they are refused. -/
theorem takes_one {name : CStr} (h : name ∈ topicCommands) (word rest : CStr) :
    (Scanned.branch ⟨1, name, [], []⟩).Takes word rest := by
  rcases mem_topicCommands.mp h with rfl | rfl | rfl | rfl <;> trivial

/-- Without a payload those that need one are refused. -/
theorem takes_two {name : CStr} (h : name ∈ topicCommands) (word rest : CStr) :
    (Scanned.branch ⟨2, name, word, []⟩).Takes word rest := by
  rcases mem_topicCommands.mp h with rfl | rfl | rfl | rfl
  · trivial
  · trivial
  · exact rfl
  · exact rfl

/-- With all three fields they are executed. -/
theorem takes_three {name : CStr} (h : name ∈ topicCommands) (topic payload word rest : CStr) :
    (Scanned.branch ⟨3, name, topic, payload⟩).Takes word rest ↔
      topic = word ∧ (name ∈ payloadCommands → payload = rest) := by
  rcases mem_topicCommands.mp h with rfl | rfl | rfl | rfl
  · have hmem : ascii "SET" ∈ payloadCommands := by decide
    simp only [hmem, true_implies]
    exact Iff.rfl
  · have hmem : ascii "PUBLISH" ∈ payloadCommands := by decide
    simp only [hmem, true_implies]
    exact Iff.rfl
  · have hmem : ascii "SUBSCRIBE" ∉ payloadCommands := by decide
    simp only [hmem, false_implies, and_true]
    exact Iff.rfl
  · have hmem : ascii "UNSUBSCRIBE" ∉ payloadCommands := by decide
    simp only [hmem, false_implies, and_true]
    exact Iff.rfl

/-- A line is executed with the whole second word and, where it is used, the whole remainder,
or not at all, if and only if these fit their fields. -/
theorem parseCommand_takes_iff {line : CStr} (hnewline : newline ∉ line)
    (hreturn : byte '\r' ∉ line) :
    (parseCommand (messageOf line)).Takes (secondWord line) (remainder line) ↔
      (firstWord line ∈ topicCommands → (secondWord line).length ≤ 63) ∧
        (firstWord line ∈ payloadCommands → (remainder line).length ≤ 799) := by
  have hmessage : messageOf line = line := List.takeWhile_eq_self_iff.mpr (bne_of_notMem hreturn)
  rw [hmessage, parseCommand]
  have hpayload : firstWord line ∈ payloadCommands → firstWord line ∈ topicCommands := by
    intro h
    rw [mem_topicCommands]
    simp only [payloadCommands, List.mem_cons, List.not_mem_nil, or_false] at h
    exact h.elim Or.inl fun h => Or.inr (Or.inl h)
  by_cases htopic : firstWord line ∈ topicCommands
  · have hname : firstWord line ≠ [] ∧ (firstWord line).length < 31 := by
      rcases mem_topicCommands.mp htopic with h | h | h | h <;> rw [h] <;> decide
    rcases scanMessage_cases hname.1 (Nat.le_of_lt hname.2) hnewline with
      ⟨hsecond, hscan⟩ | ⟨-, hfits, hremainder, hscan⟩ | ⟨-, hfits, hremainder, hscan⟩ |
        ⟨hexceeds, payload, hscan⟩
    · rw [hscan, hsecond, remainder_eq_nil hsecond]
      simp [takes_one htopic]
    · rw [hscan, hremainder]
      simp [takes_two htopic, hfits]
    · rw [hscan, takes_three htopic, List.take_eq_self_iff]
      simp [hfits]
    · rw [hscan, takes_three htopic, List.take_eq_self_iff]
      have hnot : ¬ (secondWord line).length ≤ 63 := by omega
      simp [hnot, htopic]
  · have hcommand : (scanMessage line).command ∉ topicCommands := by
      rw [mem_topicCommands] at htopic ⊢
      rwa [command_eq_iff (by decide), command_eq_iff (by decide), command_eq_iff (by decide),
        command_eq_iff (by decide)]
    simp [Scanned.takes_of_notMem hcommand, htopic, mt hpayload htopic]

theorem parseCommand_takes_short :
    (parseCommand (messageOf (ascii "SET mode on air"))).Takes (ascii "mode") (ascii "on air") := by
  have h := parseCommand_takes_iff (show newline ∉ ascii "SET mode on air" by decide) (by decide)
  exact h.mpr (by decide)

/-- A topic of 64 bytes is split between the key and the value. -/
theorem parseCommand_splits_topic :
    parseCommand (messageOf (ascii "SET " ++ List.replicate 64 (byte 'k'))) =
      .set (List.replicate 63 (byte 'k')) [byte 'k'] := by
  decide +kernel

end AdMQ
