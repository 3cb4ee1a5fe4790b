import AdMQ.Agent.Tokenizer
import AdMQ.Core.CharArray
import AdMQ.Core.Slots

/-!
# The line editor of the administration prompt

`get_input` edits a line in a buffer of 1024 bytes, with a cursor, and keeps the last
fifty lines in a history through which the arrow keys lead. A line that replaces a
longer one leaves the bytes behind its terminator as they were, and Enter looks at the
byte behind the line. The bytes of the buffer are therefore described in three parts:
left of the cursor, right of it, and behind the line.
-/

namespace AdMQ

open Core

/-- `MAX_HISTORY`. -/
def maxHistory : Nat := 50

/-- `MAX_CMD_LEN`, which is also the size of the line buffer. -/
def lineSize : Nat := 1024

/-- `history`, `history_count` and `history_view_idx`. -/
structure History where
  entries : Slots CStr maxHistory
  viewIdx : Nat
  deriving DecidableEq

/-- In a full history every line moves one place down. -/
def makeRoom (entries : Slots CStr maxHistory) : Slots CStr maxHistory :=
  if entries.count = maxHistory then entries.removeAt 0 else entries

theorem count_makeRoom_lt (entries : Slots CStr maxHistory) :
    (makeRoom entries).count < maxHistory := by
  have hle := entries.count_le
  unfold makeRoom
  split
  · next h =>
    change entries.count - 1 < maxHistory
    rw [h]
    decide
  · omega

/-- `add_history`. -/
def addHistory (h : History) (cmd : CStr) : History :=
  if cmd.length = 0 then h
  else
    ⟨(makeRoom h.entries).push (cmd.take (lineSize - 1)) (count_makeRoom_lt h.entries),
      (makeRoom h.entries).count + 1⟩

/-- The variables `buffer`, `length` and `cursor_idx` of `get_input`. -/
structure LineEditor where
  buffer : List UInt8
  length : Nat
  cursorIdx : Nat
  deriving DecidableEq

/-- A new line: the buffer comes from `calloc`. -/
def LineEditor.fresh : LineEditor := ⟨List.replicate lineSize 0, 0, 0⟩

/-- `replace_line`; here and below the result is `none` if a write falls outside of the buffer. -/
def replaceLine (buffer : List UInt8) (newText : CStr) : Option LineEditor :=
  (memcpy buffer 0 (newText ++ [0])).map fun buffer =>
    ⟨buffer, (cstr buffer).length, (cstr buffer).length⟩

/-- The text right of the cursor moves one place to the left. -/
def LineEditor.closeGap (e : LineEditor) : Option (List UInt8) :=
  if e.cursorIdx < e.length then
    memmove e.buffer (e.cursorIdx - 1) e.cursorIdx (e.length - e.cursorIdx)
  else some e.buffer

/-- The backspace key. -/
def LineEditor.backspace (e : LineEditor) : Option LineEditor :=
  if 0 < e.cursorIdx then do
    let buffer ← e.closeGap
    let buffer ← store buffer (e.length - 1) 0
    some ⟨buffer, e.length - 1, e.cursorIdx - 1⟩
  else some e

/-- A byte typed in the middle of the line moves the text right of it; at the end it is stored. -/
def LineEditor.insert (e : LineEditor) (c : UInt8) : Option LineEditor :=
  if e.cursorIdx < e.length then do
    let buffer ← memmove e.buffer (e.cursorIdx + 1) e.cursorIdx (e.length - e.cursorIdx)
    let buffer ← store buffer e.cursorIdx c
    some ⟨buffer, e.length + 1, e.cursorIdx + 1⟩
  else do
    let buffer ← store e.buffer e.cursorIdx c
    some ⟨buffer, e.length + 1, e.cursorIdx + 1⟩

/-- The left arrow. -/
def LineEditor.moveLeft (e : LineEditor) : LineEditor :=
  if 0 < e.cursorIdx then { e with cursorIdx := e.cursorIdx - 1 } else e

/-- The right arrow. -/
def LineEditor.moveRight (e : LineEditor) : LineEditor :=
  if e.cursorIdx < e.length then { e with cursorIdx := e.cursorIdx + 1 } else e

/-- The static variables and those of the call of `get_input` under way. -/
structure Prompt where
  history : History
  line : LineEditor
  deriving DecidableEq

/-- What is read from the terminal: an arrow, another escape sequence, or a single byte. -/
inductive Key where
  | up
  | down
  | left
  | right
  | unknown
  | char (c : UInt8)
  deriving DecidableEq

/-- The arrow of an escape sequence. -/
def arrow (c : UInt8) : Key :=
  if c = byte 'A' then .up
  else if c = byte 'B' then .down
  else if c = byte 'D' then .left
  else if c = byte 'C' then .right
  else .unknown

/-- The keys that the bytes from the terminal stand for; an escape sequence has three bytes, and
one that has not arrived completely is still waited for. -/
def readKeys : List UInt8 → List Key
  | [] => []
  | [c] => if c = 27 then [] else [.char c]
  | [c, d] => if c = 27 then [] else .char c :: readKeys [d]
  | c :: d :: e :: rest =>
    if c = 27 then (if d = byte '[' then arrow e else .unknown) :: readKeys rest
    else .char c :: readKeys (d :: e :: rest)

/-- The line that the history shows in place of the current one. -/
def Prompt.showLine (p : Prompt) (viewIdx : Nat) (newText : CStr) : Option Prompt :=
  (replaceLine p.line.buffer newText).map fun line => ⟨{ p.history with viewIdx := viewIdx }, line⟩

/-- The up arrow. -/
def Prompt.up (p : Prompt) : Option Prompt :=
  if 0 < p.history.viewIdx then do
    let newText ← p.history.entries.slots[p.history.viewIdx - 1]?
    p.showLine (p.history.viewIdx - 1) newText
  else some p

/-- The line below the one that is shown; past the last there is the empty line. -/
def History.below? (h : History) : Option CStr :=
  if h.viewIdx + 1 = h.entries.count then some [] else h.entries.slots[h.viewIdx + 1]?

/-- The down arrow. -/
def Prompt.down (p : Prompt) : Option Prompt :=
  if p.history.viewIdx < p.history.entries.count then do
    let newText ← p.history.below?
    p.showLine (p.history.viewIdx + 1) newText
  else some p

/-- `get_input` returns a line, which is added to the history, and the next prompt begins. -/
def Prompt.submit (p : Prompt) (buffer : List UInt8) : Prompt × Option CStr :=
  (⟨addHistory p.history (cstr buffer), .fresh⟩, some (cstr buffer))

/-- The line goes on. -/
def Prompt.edit (p : Prompt) (line : Option LineEditor) : Option (Prompt × Option CStr) :=
  line.map fun line => ({ p with line := line }, none)

/-- Enter, unless the byte behind the line is a backslash: then it is typed. A line that fills
the buffer has no byte behind it, and both branches write there. -/
def Prompt.enter (p : Prompt) (c : UInt8) : Option (Prompt × Option CStr) :=
  match p.line.buffer[p.line.length]? with
  | none => none
  | some b =>
    if b ≠ backslash then (store p.line.buffer p.line.length 0).map p.submit
    else p.edit (p.line.insert c)

/-- A single byte; 255 is what `read_char` returns as an error, which ends the line. -/
def Prompt.char (p : Prompt) (c : UInt8) : Option (Prompt × Option CStr) :=
  if c = 255 then some (p.submit p.line.buffer)
  else if c = newline ∨ c = byte '\r' then p.enter c
  else if c = 127 then p.edit p.line.backspace
  else p.edit (p.line.insert c)

/-- One pass of the loop of `get_input`, with the line if it is returned. -/
def Prompt.press (p : Prompt) : Key → Option (Prompt × Option CStr)
  | .up => p.up.map fun p => (p, none)
  | .down => p.down.map fun p => (p, none)
  | .left => p.edit (some p.line.moveLeft)
  | .right => p.edit (some p.line.moveRight)
  | .unknown => some (p, none)
  | .char c => p.char c

/-! ## The parts of the buffer -/

/-- The buffer holds the text left and right of the cursor, and other bytes behind the line. -/
def LineEditor.of (left right behind : List UInt8) : LineEditor :=
  ⟨left ++ right ++ behind, left.length + right.length, left.length⟩

section Parts

variable (left right behind : List UInt8)

@[simp] theorem buffer_of :
    (LineEditor.of left right behind).buffer = left ++ right ++ behind := rfl

@[simp] theorem length_of :
    (LineEditor.of left right behind).length = left.length + right.length := rfl

@[simp] theorem cursorIdx_of : (LineEditor.of left right behind).cursorIdx = left.length := rfl

/-- The text left of the cursor ends where the text right of it begins. -/
theorem drop_left : (left ++ right ++ behind).drop left.length = right ++ behind := by
  rw [List.append_assoc, List.drop_left]

/-- The text right of the cursor makes room for a byte, of which the last one behind it takes
the place. -/
theorem memmove_right (b : UInt8) : ∃ x, memmove (left ++ right ++ b :: behind) (left.length + 1)
    left.length right.length = some (left ++ x :: right ++ behind) := by
  obtain ⟨x, rest, hcons⟩ : ∃ x rest, right ++ b :: behind = x :: rest :=
    List.exists_cons_of_ne_nil (by simp)
  have htake : (left ++ right ++ b :: behind).take (left.length + 1) = left ++ [x] := by
    rw [List.append_assoc, hcons, List.take_length_add_append]
    rfl
  have hdrop : (left ++ right ++ b :: behind).drop (left.length + 1 + right.length) = behind := by
    rw [List.append_assoc, Nat.add_assoc, List.drop_length_add_append, Nat.add_comm 1,
      List.drop_length_add_append]
    rfl
  refine ⟨x, ?_⟩
  rw [memmove_eq_some (by simp only [List.length_append]; omega)
    (by simp only [List.length_append, List.length_cons]; omega), drop_left, List.take_left,
    overwrite, htake, hdrop, List.append_assoc left, List.singleton_append]

/-- A typed byte takes the place of the first byte behind the line. -/
theorem insert_of (b c : UInt8) :
    (LineEditor.of left right (b :: behind)).insert c = some (.of (left ++ [c]) right behind) := by
  have hlen : left.length + right.length + 1 = (left ++ [c]).length + right.length := by
    simp only [List.length_append, List.length_singleton]
    omega
  have hstore (x : UInt8) : store (left ++ x :: right ++ behind) left.length c =
      some (left ++ [c] ++ right ++ behind) := by
    rw [store_eq_some (by simp)]
    simp [List.set_append_right]
  rw [LineEditor.insert, cursorIdx_of, length_of, buffer_of]
  by_cases hmid : left.length < left.length + right.length
  · obtain ⟨x, hmove⟩ := memmove_right left right behind b
    rw [if_pos hmid]
    simp only [Nat.add_sub_cancel_left, hmove, hstore, LineEditor.of, Option.bind_eq_bind,
      Option.bind_some, hlen, List.length_append, List.length_singleton]
  · obtain rfl : right = [] := List.eq_nil_of_length_eq_zero (by omega)
    have hend : store (left ++ b :: behind) left.length c = some (left ++ [c] ++ [] ++ behind) := by
      rw [← hstore b, List.append_assoc]
      rfl
    rw [if_neg hmid]
    rw [List.append_nil left, hend]
    simp only [LineEditor.of, Option.bind_eq_bind, Option.bind_some, hlen, List.length_append,
      List.length_singleton]

/-- There is no place for it if the line fills the buffer. -/
theorem insert_of_full (c : UInt8) : (LineEditor.of left right []).insert c = none := by
  rw [LineEditor.insert, cursorIdx_of, length_of, buffer_of]
  by_cases hmid : left.length < left.length + right.length
  · have hmove : memmove (left ++ right ++ []) (left.length + 1) left.length right.length =
        none := by
      rw [memmove, if_pos (by simp), drop_left, List.take_left, memcpy, if_neg (by simp)]
    rw [if_pos hmid]
    simp only [Nat.add_sub_cancel_left, hmove, Option.bind_eq_bind, Option.bind_none]
  · obtain rfl : right = [] := List.eq_nil_of_length_eq_zero (by omega)
    have hstore : store (left ++ [] ++ []) left.length c = none := if_neg (by simp)
    rw [if_neg hmid]
    simp only [hstore, Option.bind_eq_bind, Option.bind_none]

/-- The text right of the cursor closes up, and its last byte stays once more behind it. -/
theorem closeGap_of (b : UInt8) : ∃ x, (LineEditor.of (left ++ [b]) right behind).closeGap =
    some (left ++ right ++ x :: behind) := by
  obtain ⟨x, hlast⟩ : ∃ x, (b :: right).drop right.length = [x] :=
    List.length_eq_one_iff.mp (by simp)
  refine ⟨x, ?_⟩
  have hbuffer : left ++ [b] ++ right ++ behind = left ++ (b :: right ++ behind) := by simp
  have hbehind : (b :: right ++ behind).drop right.length = x :: behind := by
    rw [List.drop_append_of_le_length (by simp), hlast]
    rfl
  rw [LineEditor.closeGap, cursorIdx_of, length_of, buffer_of]
  by_cases hmid : (left ++ [b]).length < (left ++ [b]).length + right.length
  · have hmove : memmove (left ++ [b] ++ right ++ behind) left.length (left ++ [b]).length
        right.length = some (left ++ right ++ x :: behind) := by
      rw [memmove_eq_some (by simp only [List.length_append]; omega)
        (by simp only [List.length_append]; omega), drop_left, List.take_left, overwrite, hbuffer,
        List.take_left, List.drop_length_add_append, hbehind]
    have hdst : (left ++ [b]).length - 1 = left.length := by simp
    rw [if_pos hmid]
    rw [Nat.add_sub_cancel_left, hdst, hmove]
  · obtain rfl : right = [] := List.eq_nil_of_length_eq_zero (by omega)
    rw [if_neg hmid]
    obtain rfl : b = x := List.singleton_injective hlast
    simp

/-- Backspace leaves a terminator behind the line. -/
theorem backspace_of (b : UInt8) : (LineEditor.of (left ++ [b]) right behind).backspace =
    some (.of left right (0 :: behind)) := by
  have hpos : 0 < (LineEditor.of (left ++ [b]) right behind).cursorIdx := by simp [LineEditor.of]
  have hlen : (left ++ [b]).length + right.length - 1 = left.length + right.length := by
    simp only [List.length_append, List.length_singleton]
    omega
  have hleft : (left ++ [b]).length - 1 = left.length := by simp
  have hstore (x : UInt8) : store (left ++ right ++ x :: behind) (left.length + right.length) 0 =
      some (left ++ right ++ 0 :: behind) := by
    rw [store_eq_some (by simp)]
    simp [List.set_append_right]
  obtain ⟨x, hgap⟩ := closeGap_of left right behind b
  rw [LineEditor.backspace, if_pos hpos, hgap]
  simp only [LineEditor.of, Option.bind_eq_bind, Option.bind_some, hlen, hstore, hleft]

theorem moveLeft_of (b : UInt8) : (LineEditor.of (left ++ [b]) right behind).moveLeft =
    .of left (b :: right) behind := by
  have hpos : 0 < (LineEditor.of (left ++ [b]) right behind).cursorIdx := by simp [LineEditor.of]
  have hlen : (left ++ [b]).length + right.length = left.length + (b :: right).length := by
    simp only [List.length_append, List.length_cons, List.length_nil]
    omega
  have hleft : (left ++ [b]).length - 1 = left.length := by simp
  rw [LineEditor.moveLeft, if_pos hpos]
  simp only [LineEditor.of, hlen, hleft, List.append_assoc, List.cons_append, List.nil_append]

theorem moveRight_of (b : UInt8) : (LineEditor.of left (b :: right) behind).moveRight =
    .of (left ++ [b]) right behind := by
  have hlt : (LineEditor.of left (b :: right) behind).cursorIdx <
      (LineEditor.of left (b :: right) behind).length := by simp [LineEditor.of]
  have hlen : left.length + (b :: right).length = (left ++ [b]).length + right.length := by
    simp only [List.length_append, List.length_cons, List.length_nil]
    omega
  rw [LineEditor.moveRight, if_pos hlt]
  simp only [LineEditor.of, hlen, List.length_append, List.length_singleton, List.append_assoc,
    List.cons_append, List.nil_append]

theorem moveRight_of_nil :
    (LineEditor.of left [] behind).moveRight = .of left [] behind := if_neg (Nat.lt_irrefl _)

end Parts

/-- A line from the history is terminated, and what was behind that stays. -/
theorem replaceLine_eq {buffer : List UInt8} {newText : CStr}
    (hlen : newText.length < buffer.length) (hnul : 0 ∉ newText) :
    replaceLine buffer newText = some (.of newText [] (0 :: buffer.drop (newText.length + 1))) := by
  have hcopy : memcpy buffer 0 (newText ++ [0]) =
      some (newText ++ 0 :: buffer.drop (newText.length + 1)) := by
    rw [memcpy_eq_some (by simp only [List.length_append, List.length_singleton]; omega), overwrite]
    simp
  rw [replaceLine, hcopy, Option.map_some, cstr_append_zero, cstr_eq_self hnul]
  simp [LineEditor.of]

end AdMQ
