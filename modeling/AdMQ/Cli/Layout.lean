import AdMQ.Cli.Editor
import AdMQ.Core.Transition
import AdMQ.Core.Zipper

/-!
# The editor on the parts of its buffer

The operations of the line editor in terms of the text left of the cursor, the text
right of it and the bytes behind the line. As long as the three parts fill the buffer
and the history holds lines that fit it, each key does on the buffer what it does on
the parts, and the only writes outside of the buffer are those of a byte that arrives
when there is none behind the line.
-/

namespace AdMQ

open Core

/-- The lines in use fit the buffer, and the view index is one of theirs or behind the last. -/
structure History.Valid (h : History) : Prop where
  length_lt : ∀ s ∈ h.entries.live, s.length < lineSize
  nul_notMem : ∀ s ∈ h.entries.live, 0 ∉ s
  viewIdx_le : h.viewIdx ≤ h.entries.count

/-- Before the first prompt the history is empty. -/
def History.empty : History := ⟨Slots.empty maxHistory [], 0⟩

/-- The line that is shown at a view index: the empty one behind the last. -/
def History.lineAt (h : History) (i : Nat) : CStr := h.entries.live[i]?.getD []

/-- The line above the one that is shown. -/
def History.above? (h : History) : Option CStr := h.entries.slots[h.viewIdx - 1]?

/-- The history and the three parts of the buffer. -/
structure Layout where
  history : History
  left : List UInt8
  right : List UInt8
  behind : List UInt8

namespace Layout

/-- The variables of `get_input`. -/
def prompt (z : Layout) : Prompt := ⟨z.history, .of z.left z.right z.behind⟩

/-- The line. -/
def text (z : Layout) : CStr := z.left ++ z.right

/-- The line with its cursor. -/
def line (z : Layout) : Zipper UInt8 := ⟨z.left, z.right⟩

/-- The parts fill the buffer. -/
structure Valid (z : Layout) : Prop where
  size : z.left.length + z.right.length + z.behind.length = lineSize
  history : z.history.Valid

/-- A new line. -/
def fresh (h : History) : Layout := ⟨h, [], [], List.replicate lineSize 0⟩

/-- A line of the history takes the place of the current one. -/
def showLine (z : Layout) (viewIdx : Nat) (newText : CStr) : Layout :=
  ⟨{ z.history with viewIdx := viewIdx }, newText, [],
    0 :: (z.text ++ z.behind).drop (newText.length + 1)⟩

/-- The line at a view index takes the place of the current one. -/
def view (z : Layout) (i : Nat) : Layout := z.showLine i (z.history.lineAt i)

def up (z : Layout) : Option Layout :=
  if 0 < z.history.viewIdx then z.history.above?.map (z.showLine (z.history.viewIdx - 1))
  else some z

def down (z : Layout) : Option Layout :=
  if z.history.viewIdx < z.history.entries.count then
    z.history.below?.map (z.showLine (z.history.viewIdx + 1))
  else some z

def moveLeft (z : Layout) : Layout :=
  match z.left.getLast? with
  | none => z
  | some b => { z with left := z.left.dropLast, right := b :: z.right }

def moveRight (z : Layout) : Layout :=
  match z.right with
  | [] => z
  | b :: right => { z with left := z.left ++ [b], right := right }

def backspace (z : Layout) : Layout :=
  if z.left = [] then z else { z with left := z.left.dropLast, behind := 0 :: z.behind }

def insert (z : Layout) (c : UInt8) : Option Layout :=
  match z.behind with
  | [] => none
  | _ :: behind => some { z with left := z.left ++ [c], behind := behind }

def submit (z : Layout) (line : CStr) : Layout × Option CStr :=
  (fresh (addHistory z.history line), some line)

/-- The line goes on. -/
def goOn (z : Layout) : Layout × Option CStr := (z, none)

def enter (z : Layout) (c : UInt8) : Option (Layout × Option CStr) :=
  match z.behind with
  | [] => none
  | b :: _ => if b = backslash then (z.insert c).map goOn else some (z.submit (cstr z.text))

def char (z : Layout) (c : UInt8) : Option (Layout × Option CStr) :=
  if c = 255 then some (z.submit (cstr (z.text ++ z.behind)))
  else if c = newline ∨ c = byte '\r' then z.enter c
  else if c = 127 then some z.backspace.goOn
  else (z.insert c).map goOn

def press (z : Layout) : Key → Option (Layout × Option CStr)
  | .up => z.up.map goOn
  | .down => z.down.map goOn
  | .left => some z.moveLeft.goOn
  | .right => some z.moveRight.goOn
  | .unknown => some z.goOn
  | .char c => z.char c

end Layout

/-! ## The lines of the history -/

namespace History

variable {h : History}

/-- The history at the start of the program. -/
theorem empty_valid : History.empty.Valid := by
  have hlive : History.empty.entries.live = [] := Slots.live_empty []
  refine ⟨?_, ?_, Nat.le_refl 0⟩
  · rw [hlive]
    exact List.forall_mem_nil _
  · rw [hlive]
    exact List.forall_mem_nil _

/-- Below the count the array holds the line that is shown there. -/
theorem getElem?_slots_of_lt (h : History) {i : Nat} (hi : i < h.entries.count) :
    h.entries.slots[i]? = some (h.lineAt i) := by
  have hlen : i < h.entries.live.length := by rwa [Slots.length_live]
  have hlive : h.entries.slots[i]? = h.entries.live[i]? := by
    rw [Slots.live, List.getElem?_take_of_lt hi]
  rw [hlive, lineAt, List.getElem?_eq_getElem hlen, Option.getD_some]

/-- What is shown is a line of the history or the empty line. -/
theorem lineAt_cases (h : History) (i : Nat) : h.lineAt i ∈ h.entries.live ∨ h.lineAt i = [] := by
  rw [lineAt]
  cases hget : h.entries.live[i]? with
  | none => exact Or.inr rfl
  | some s => exact Or.inl (List.mem_of_getElem? hget)

/-- What is shown fits into the line buffer with its terminator. -/
theorem Valid.length_lineAt_lt (hvalid : h.Valid) (i : Nat) : (h.lineAt i).length < lineSize := by
  rcases h.lineAt_cases i with hmem | hnil
  · exact hvalid.length_lt _ hmem
  · rw [hnil]
    decide

/-- What is shown is a string as a whole. -/
theorem Valid.nul_notMem_lineAt (hvalid : h.Valid) (i : Nat) : 0 ∉ h.lineAt i := by
  rcases h.lineAt_cases i with hmem | hnil
  · exact hvalid.nul_notMem _ hmem
  · rw [hnil]
    exact List.not_mem_nil

/-- Up finds the line above whenever there is one. -/
theorem Valid.above? (hvalid : h.Valid) (hpos : 0 < h.viewIdx) :
    h.above? = some (h.lineAt (h.viewIdx - 1)) := by
  have hle := hvalid.viewIdx_le
  exact h.getElem?_slots_of_lt (by omega)

/-- Down finds the next line, or the empty one behind the last. -/
theorem below?_eq (h : History) (hlt : h.viewIdx < h.entries.count) :
    h.below? = some (h.lineAt (h.viewIdx + 1)) := by
  rw [History.below?]
  by_cases hend : h.viewIdx + 1 = h.entries.count
  · rw [if_pos hend, lineAt, List.getElem?_eq_none (by rw [Slots.length_live, hend]),
      Option.getD_none]
  · rw [if_neg hend, h.getElem?_slots_of_lt (by omega)]

/-- Without its oldest line, a full history has room for one more. -/
theorem live_makeRoom (entries : Slots CStr maxHistory) : (makeRoom entries).live =
    if entries.count = maxHistory then entries.live.tail else entries.live := by
  unfold makeRoom
  split
  · next hfull =>
    rw [Slots.live_removeAt entries (by rw [hfull]; decide), List.eraseIdx_zero]
  · rfl

/-- Making room adds no line. -/
theorem mem_of_mem_makeRoom {entries : Slots CStr maxHistory} {s : CStr}
    (hs : s ∈ (makeRoom entries).live) : s ∈ entries.live := by
  rw [live_makeRoom] at hs
  split at hs
  · exact List.mem_of_mem_tail hs
  · exact hs

/-- A line without NUL can be added to the history. -/
theorem Valid.add (hvalid : h.Valid) {cmd : CStr} (hcmd : 0 ∉ cmd) : (addHistory h cmd).Valid := by
  unfold addHistory
  split
  · exact hvalid
  · refine ⟨fun s hs => ?_, fun s hs => ?_, Nat.le_refl _⟩
    all_goals
      rw [Slots.live_push, List.mem_append, List.mem_singleton] at hs
    · rcases hs with hs | rfl
      · exact hvalid.length_lt s (mem_of_mem_makeRoom hs)
      · exact Nat.lt_of_le_of_lt (List.length_take_le _ _) (by decide)
    · rcases hs with hs | rfl
      · exact hvalid.nul_notMem s (mem_of_mem_makeRoom hs)
      · exact fun hmem => hcmd (List.mem_of_mem_take hmem)

/-- The view index may move up to the empty line behind the history. -/
theorem Valid.view (hvalid : h.Valid) {viewIdx : Nat} (hle : viewIdx ≤ h.entries.count) :
    ({ h with viewIdx := viewIdx } : History).Valid :=
  ⟨hvalid.length_lt, hvalid.nul_notMem, hle⟩

end History

/-! ## Keys on the buffer and on its parts -/

namespace Layout

variable {z : Layout}

/-- The parts of the buffer are as long as the buffer. -/
theorem Valid.length_buffer (hz : z.Valid) : (z.text ++ z.behind).length = lineSize := by
  rw [text, List.length_append, List.length_append]
  exact hz.size

/-- `replace_line` on the buffer: a line that fits is copied with its terminator. -/
theorem showLine_prompt (hz : z.Valid) (viewIdx : Nat) {newText : CStr}
    (hlen : newText.length < lineSize) (hnul : 0 ∉ newText) :
    z.prompt.showLine viewIdx newText = some (z.showLine viewIdx newText).prompt := by
  have hbuffer : z.prompt.line.buffer = z.text ++ z.behind := rfl
  rw [Prompt.showLine, replaceLine_eq (by rw [hbuffer, hz.length_buffer]; exact hlen) hnul]
  rfl

/-- A byte is stored at the cursor, wherever the cursor stands. -/
theorem insert_prompt (z : Layout) (c : UInt8) :
    z.prompt.edit (z.prompt.line.insert c) =
      ((z.insert c).map goOn).map fun r => (r.1.prompt, r.2) := by
  obtain ⟨h, left, right, behind⟩ := z
  cases behind with
  | nil => rw [prompt, insert_of_full]; rfl
  | cons b behind => rw [prompt, insert_of]; rfl

/-- Backspace closes the gap and writes a terminator. -/
theorem backspace_prompt (z : Layout) :
    z.prompt.edit z.prompt.line.backspace = some (z.backspace.prompt, none) := by
  obtain ⟨h, left, right, behind⟩ := z
  rcases List.eq_nil_or_concat' left with rfl | ⟨front, b, rfl⟩
  · rfl
  · rw [prompt, backspace_of, backspace, if_neg (by simp)]
    simp [prompt, Prompt.edit]

/-- The cursor moves to the left over one byte, if there is one. -/
theorem moveLeft_prompt (z : Layout) :
    z.prompt.edit (some z.prompt.line.moveLeft) = some (z.moveLeft.prompt, none) := by
  obtain ⟨h, left, right, behind⟩ := z
  rcases List.eq_nil_or_concat' left with rfl | ⟨front, b, rfl⟩
  · rfl
  · rw [prompt, moveLeft_of]
    simp [moveLeft, prompt, Prompt.edit]

/-- The cursor moves to the right over one byte, if there is one. -/
theorem moveRight_prompt (z : Layout) :
    z.prompt.edit (some z.prompt.line.moveRight) = some (z.moveRight.prompt, none) := by
  obtain ⟨h, left, right, behind⟩ := z
  cases right with
  | nil => rw [prompt, moveRight_of_nil]; rfl
  | cons b right => rw [prompt, moveRight_of]; rfl

/-- Enter reads the byte behind the line, which is the first of the last part. -/
theorem enter_prompt (z : Layout) (c : UInt8) :
    z.prompt.enter c = (z.enter c).map fun r => (r.1.prompt, r.2) := by
  rcases hbehind : z.behind with _ | ⟨b, behind⟩
  · have hread : z.prompt.line.buffer[z.prompt.line.length]? = none := by
      simp [prompt, hbehind]
    simp only [Prompt.enter, hread, enter, hbehind]
    rfl
  · have hread : z.prompt.line.buffer[z.prompt.line.length]? = some b := by
      simp [prompt, hbehind]
    have hstore : store z.prompt.line.buffer z.prompt.line.length 0 =
        some (z.text ++ 0 :: behind) := by
      simp only [prompt, buffer_of, length_of, hbehind]
      rw [store_eq_some (by simp)]
      simp [List.set_append_right, text]
    simp only [Prompt.enter, hread, enter, hbehind]
    by_cases hb : b = backslash
    · rw [if_neg (not_not.mpr hb), if_pos hb, insert_prompt]
    · rw [if_pos hb, if_neg hb, hstore, Option.map_some, Prompt.submit, cstr_append_zero]
      rfl

/-- Up always finds a line in a valid history. -/
theorem Valid.up_eq (hz : z.Valid) :
    z.up = some (if 0 < z.history.viewIdx then z.view (z.history.viewIdx - 1) else z) := by
  rw [up]
  split
  · next hpos => rw [hz.history.above? hpos, Option.map_some, view]
  · rfl

/-- Down always finds a line. -/
theorem down_eq (z : Layout) : z.down = some (if z.history.viewIdx < z.history.entries.count then
    z.view (z.history.viewIdx + 1) else z) := by
  rw [down]
  split
  · next hlt => rw [z.history.below?_eq hlt, Option.map_some, view]
  · rfl

/-- A line of the history can take the place of every line. -/
theorem view_prompt (hz : z.Valid) (i : Nat) :
    z.prompt.showLine i (z.history.lineAt i) = some (z.view i).prompt :=
  showLine_prompt hz i (hz.history.length_lineAt_lt i) (hz.history.nul_notMem_lineAt i)

/-- Up does on the buffer what it does on the parts. -/
theorem up_prompt (hz : z.Valid) : z.prompt.up = z.up.map prompt := by
  rw [hz.up_eq, Prompt.up]
  by_cases hpos : 0 < z.history.viewIdx
  · have habove : z.prompt.history.entries.slots[z.prompt.history.viewIdx - 1]? =
        some (z.history.lineAt (z.history.viewIdx - 1)) := hz.history.above? hpos
    rw [if_pos (show 0 < z.prompt.history.viewIdx from hpos), if_pos hpos, habove]
    exact view_prompt hz _
  · rw [if_neg (show ¬ 0 < z.prompt.history.viewIdx from hpos), if_neg hpos]
    rfl

/-- Down does on the buffer what it does on the parts. -/
theorem down_prompt (hz : z.Valid) : z.prompt.down = z.down.map prompt := by
  rw [z.down_eq, Prompt.down]
  by_cases hlt : z.history.viewIdx < z.history.entries.count
  · have hbelow : z.prompt.history.below? = some (z.history.lineAt (z.history.viewIdx + 1)) :=
      z.history.below?_eq hlt
    rw [if_pos (show z.prompt.history.viewIdx < z.prompt.history.entries.count from hlt),
      if_pos hlt, hbelow]
    exact view_prompt hz _
  · rw [if_neg (show ¬ z.prompt.history.viewIdx < z.prompt.history.entries.count from hlt),
      if_neg hlt]
    rfl

/-- A key does on the buffer what it does on the parts. -/
theorem press_prompt (hz : z.Valid) (k : Key) :
    z.prompt.press k = (z.press k).map fun r => (r.1.prompt, r.2) := by
  cases k with
  | up => rw [Prompt.press, up_prompt hz, press, Option.map_map, Option.map_map]; rfl
  | down => rw [Prompt.press, down_prompt hz, press, Option.map_map, Option.map_map]; rfl
  | left => rw [Prompt.press, moveLeft_prompt]; rfl
  | right => rw [Prompt.press, moveRight_prompt]; rfl
  | unknown => rfl
  | char c =>
    rw [Prompt.press, press, Prompt.char, char]
    split
    · rfl
    · split
      · exact enter_prompt z c
      · split
        · rw [backspace_prompt]
          rfl
        · exact insert_prompt z c

/-! ## The line and the history after a key -/

theorem text_eq (z : Layout) : z.text = z.line.text := rfl

/-- Bytes are typed over those behind the line. -/
def typed (z : Layout) (bytes : List UInt8) : Layout :=
  ⟨z.history, z.left ++ bytes, z.right, z.behind.drop bytes.length⟩

theorem typed_nil (z : Layout) : z.typed [] = z := by simp [typed]

/-- Bytes typed in two goes are typed in one. -/
theorem typed_typed (z : Layout) (front back : List UInt8) :
    (z.typed front).typed back = z.typed (front ++ back) := by
  simp [typed]

/-- As long as there is room, inserting a byte is typing it. -/
theorem insert_eq_typed (c : UInt8) (hroom : z.behind ≠ []) :
    z.insert c = some (z.typed [c]) := by
  obtain ⟨b, behind, hbehind⟩ := List.exists_cons_of_ne_nil hroom
  rw [insert, typed, hbehind]
  rfl

/-- A line that does not fill the buffer has a byte behind it. -/
theorem Valid.behind_ne_nil (hz : z.Valid) (hlen : z.text.length < lineSize) :
    z.behind ≠ [] := by
  have hsize := hz.size
  rw [text, List.length_append] at hlen
  exact List.ne_nil_of_length_pos (by omega)

/-- On the line, backspace is that of the zipper. -/
theorem line_backspace (z : Layout) : z.backspace.line = z.line.backspace := by
  rw [backspace]
  split
  · next hnil => simp [line, Zipper.backspace, hnil]
  · rfl

theorem line_moveLeft (z : Layout) : z.moveLeft.line = z.line.moveLeft := by
  cases hlast : z.left.getLast? <;> simp [moveLeft, line, Zipper.moveLeft, hlast]

theorem line_moveRight (z : Layout) : z.moveRight.line = z.line.moveRight := by
  cases hright : z.right <;> simp [moveRight, line, Zipper.moveRight, hright]

/-- Editing the line leaves the history alone. -/
theorem history_backspace (z : Layout) : z.backspace.history = z.history := by
  rw [backspace]
  split <;> rfl

theorem history_moveLeft (z : Layout) : z.moveLeft.history = z.history := by
  rw [moveLeft]
  split <;> rfl

theorem history_moveRight (z : Layout) : z.moveRight.history = z.history := by
  rw [moveRight]
  split <;> rfl

/-! ## What a key keeps -/

/-- A new line fills the buffer with zeros. -/
theorem valid_fresh {h : History} (hvalid : h.Valid) : (fresh h).Valid :=
  ⟨by simp [fresh], hvalid⟩

theorem Valid.view (hz : z.Valid) {i : Nat} (hi : i ≤ z.history.entries.count) :
    (z.view i).Valid := by
  refine ⟨?_, hz.history.view hi⟩
  have hbuffer := hz.length_buffer
  have hlen := hz.history.length_lineAt_lt i
  simp only [Layout.view, showLine, List.length_nil, List.length_cons, List.length_drop, hbuffer]
  omega

theorem Valid.up (hz : z.Valid) {z' : Layout} (h : z.up = some z') : z'.Valid := by
  have hle := hz.history.viewIdx_le
  rw [hz.up_eq, Option.some.injEq] at h
  subst h
  split
  · exact hz.view (by omega)
  · exact hz

theorem Valid.down (hz : z.Valid) {z' : Layout} (h : z.down = some z') : z'.Valid := by
  rw [z.down_eq, Option.some.injEq] at h
  subst h
  split
  · next hlt => exact hz.view hlt
  · exact hz

/-- An inserted byte takes the place of one behind the line. -/
theorem Valid.insert (hz : z.Valid) {c : UInt8} {z' : Layout} (h : z.insert c = some z') :
    z'.Valid := by
  have hsize := hz.size
  rw [Layout.insert] at h
  split at h
  · cases h
  · next b behind hbehind =>
    obtain rfl := Option.some.inj h
    rw [hbehind, List.length_cons] at hsize
    refine ⟨?_, hz.history⟩
    simp only [List.length_append, List.length_singleton]
    omega

/-- Moving the cursor only moves the border between the parts. -/
theorem Valid.moveLeft (hz : z.Valid) : z.moveLeft.Valid := by
  have hsize := hz.size
  rw [Layout.moveLeft]
  split
  · exact hz
  · next b hlast =>
    obtain ⟨front, hleft⟩ := List.getLast?_eq_some_iff.mp hlast
    refine ⟨?_, hz.history⟩
    rw [hleft] at hsize
    simp only [hleft, List.dropLast_concat, List.length_append, List.length_cons,
      List.length_nil] at hsize ⊢
    omega

theorem Valid.moveRight (hz : z.Valid) : z.moveRight.Valid := by
  have hsize := hz.size
  rw [Layout.moveRight]
  split
  · exact hz
  · next b right hright =>
    refine ⟨?_, hz.history⟩
    rw [hright] at hsize
    simp only [List.length_append, List.length_cons, List.length_nil] at hsize ⊢
    omega

/-- The byte that is erased makes room behind the line. -/
theorem Valid.backspace (hz : z.Valid) : z.backspace.Valid := by
  have hsize := hz.size
  rw [Layout.backspace]
  split
  · exact hz
  · next hne =>
    have hpos := List.length_pos_iff.mpr hne
    refine ⟨?_, hz.history⟩
    simp only [List.length_dropLast, List.length_cons]
    omega

/-- A line that is submitted becomes part of a valid history. -/
theorem Valid.submit (hz : z.Valid) {line : CStr} (hline : 0 ∉ line) : (z.submit line).1.Valid :=
  valid_fresh (hz.history.add hline)

/-- The parts fill the buffer after every key. -/
theorem Valid.press (hz : z.Valid) {k : Key} {z' : Layout} {out : Option CStr}
    (h : z.press k = some (z', out)) : z'.Valid := by
  have hinsert {c : UInt8} (h : (z.insert c).map goOn = some (z', out)) : z'.Valid := by
    obtain ⟨z₁, hz₁, hgo⟩ := Option.map_eq_some_iff.mp h
    obtain ⟨rfl, -⟩ := Prod.mk.inj hgo
    exact hz.insert hz₁
  cases k with
  | up =>
    obtain ⟨z₁, hz₁, hgo⟩ := Option.map_eq_some_iff.mp h
    obtain ⟨rfl, -⟩ := Prod.mk.inj hgo
    exact hz.up hz₁
  | down =>
    obtain ⟨z₁, hz₁, hgo⟩ := Option.map_eq_some_iff.mp h
    obtain ⟨rfl, -⟩ := Prod.mk.inj hgo
    exact hz.down hz₁
  | left =>
    obtain ⟨rfl, -⟩ := Prod.mk.inj (Option.some.inj h)
    exact hz.moveLeft
  | right =>
    obtain ⟨rfl, -⟩ := Prod.mk.inj (Option.some.inj h)
    exact hz.moveRight
  | unknown =>
    obtain ⟨rfl, -⟩ := Prod.mk.inj (Option.some.inj h)
    exact hz
  | char c =>
    rw [Layout.press, char] at h
    split at h
    · obtain ⟨rfl, -⟩ := Prod.mk.inj (Option.some.inj h)
      exact hz.submit (nul_notMem_cstr _)
    · split at h
      · rw [enter] at h
        split at h
        · cases h
        · split at h
          · exact hinsert h
          · obtain ⟨rfl, -⟩ := Prod.mk.inj (Option.some.inj h)
            exact hz.submit (nul_notMem_cstr _)
      · split at h
        · obtain ⟨rfl, -⟩ := Prod.mk.inj (Option.some.inj h)
          exact hz.backspace
        · exact hinsert h

/-- A byte that is typed or ends the line with a terminator. -/
def Writes : Key → Prop
  | .char c => c ≠ 255 ∧ c ≠ 127
  | _ => False

/-- A key makes a write outside of the buffer exactly if it writes a byte and the line fills it. -/
theorem press_eq_none_iff (hz : z.Valid) (k : Key) :
    z.press k = none ↔ Writes k ∧ z.text.length = lineSize := by
  have hfull : z.text.length = lineSize ↔ z.behind = [] := by
    have hsize := hz.size
    rw [text, List.length_append, ← List.length_eq_zero_iff]
    omega
  rw [hfull]
  have hinsert (c : UInt8) : (z.insert c).map goOn = none ↔ z.behind = [] := by
    rw [Option.map_eq_none_iff, insert]
    split <;> simp [*]
  cases k with
  | up => exact iff_of_false (by simp [press, hz.up_eq]) And.left
  | down => exact iff_of_false (by simp [press, z.down_eq]) And.left
  | left | right | unknown => exact iff_of_false (fun h => nomatch h) And.left
  | char c =>
    rw [press, char, Writes]
    split
    · next hc => exact iff_of_false (fun h => nomatch h) fun h => h.1.1 hc
    · next hc =>
      split
      · next henter =>
        have hne : c ≠ 127 := by
          rintro rfl
          exact absurd henter (by decide)
        rw [enter]
        cases hbehind : z.behind with
        | nil => simp [hc, hne]
        | cons b behind =>
          by_cases hb : b = backslash
          · simp [hb, insert, hbehind]
          · simp [hb]
      · split
        · next hback => exact iff_of_false (fun h => nomatch h) fun h => h.1.2 hback
        · next hback => rw [hinsert, and_iff_right ⟨hc, hback⟩]

end Layout

/-! ## Runs -/

/-- The prompt after a key. -/
def pressKey (p : Prompt) (k : Key) : Option Prompt := (p.press k).map Prod.fst

/-- The parts fill the buffer at the end of every run. -/
theorem exists_layout_of_run {z : Layout} (hz : z.Valid) {keys : List Key} {p : Prompt}
    (h : run pressKey z.prompt keys = some p) : ∃ z' : Layout, z'.Valid ∧ p = z'.prompt := by
  induction keys generalizing z with
  | nil =>
    obtain rfl : z.prompt = p := Option.some.inj h
    exact ⟨z, hz, rfl⟩
  | cons k keys ih =>
    cases hk : z.press k with
    | none =>
      have hstep : pressKey z.prompt k = none := by
        rw [pressKey, Layout.press_prompt hz, hk]
        rfl
      rw [run, hstep] at h
      cases h
    | some r =>
      obtain ⟨z₁, out⟩ := r
      have hstep : pressKey z.prompt k = some z₁.prompt := by
        rw [pressKey, Layout.press_prompt hz, hk]
        rfl
      rw [run_cons_of_eq hstep] at h
      exact ih (hz.press hk) h

/-- A run writes outside of the buffer exactly if a byte arrives when the line fills it. -/
theorem run_pressKey_isSome {z : Layout} (hz : z.Valid) (keys : List Key) :
    (run pressKey z.prompt keys).isSome = true ↔
      ∀ front k back p, keys = front ++ k :: back → run pressKey z.prompt front = some p →
        Layout.Writes k → p.line.length ≠ lineSize := by
  rw [Option.isSome_iff_ne_none, ne_eq, run_eq_none_iff, not_exists]
  refine forall_congr' fun front => ?_
  simp only [not_exists, not_and]
  refine forall_congr' fun k => forall_congr' fun back => forall_congr' fun p =>
    forall_congr' fun _ => ?_
  constructor
  · intro h hrun hwrites hfull
    obtain ⟨z', hz', rfl⟩ := exists_layout_of_run hz hrun
    refine h hrun ?_
    have hlen : z'.text.length = lineSize := by
      rw [Layout.text, List.length_append]
      exact hfull
    rw [pressKey, Layout.press_prompt hz', (Layout.press_eq_none_iff hz' k).mpr ⟨hwrites, hlen⟩]
    rfl
  · intro h hrun hnone
    obtain ⟨z', hz', rfl⟩ := exists_layout_of_run hz hrun
    rw [pressKey, Layout.press_prompt hz', Option.map_eq_none_iff, Option.map_eq_none_iff,
      Layout.press_eq_none_iff hz'] at hnone
    refine h hrun hnone.1 ?_
    rw [← hnone.2, Layout.text, List.length_append]
    rfl

/-- A byte that is typed into the line wherever it arrives. -/
def IsTyped (c : UInt8) : Prop :=
  c ≠ 0 ∧ c ≠ newline ∧ c ≠ byte '\r' ∧ c ≠ 27 ∧ c ≠ 127 ∧ c ≠ 255

instance (c : UInt8) : Decidable (IsTyped c) := inferInstanceAs (Decidable (_ ∧ _))

/-- Typed bytes reach the last branch of `get_input`. -/
theorem Layout.press_typed (z : Layout) {c : UInt8} (hc : IsTyped c) :
    z.press (.char c) = (z.insert c).map goOn := by
  obtain ⟨-, hnewline, hreturn, -, hback, hend⟩ := hc
  rw [press, char, if_neg hend, if_neg (not_or.mpr ⟨hnewline, hreturn⟩), if_neg hback]

/-- Typed bytes take the places of those behind the line. -/
theorem Layout.run_typed {z : Layout} (hz : z.Valid) {bytes : List UInt8}
    (hbytes : ∀ c ∈ bytes, IsTyped c) (hlen : bytes.length ≤ z.behind.length) :
    run pressKey z.prompt (bytes.map Key.char) = some (z.typed bytes).prompt := by
  induction bytes generalizing z with
  | nil => rw [typed_nil]; rfl
  | cons c bytes ih =>
    rw [List.forall_mem_cons] at hbytes
    rw [List.length_cons] at hlen
    have hinsert : z.insert c = some (z.typed [c]) :=
      insert_eq_typed c (List.ne_nil_of_length_pos (Nat.lt_of_lt_of_le (Nat.succ_pos _) hlen))
    have hstep : pressKey z.prompt (.char c) = some (z.typed [c]).prompt := by
      rw [pressKey, press_prompt hz, press_typed z hbytes.1, hinsert]
      rfl
    have hrest : bytes.length ≤ (z.typed [c]).behind.length := by
      rw [typed, List.length_drop]
      exact Nat.le_sub_one_of_lt hlen
    rw [List.map_cons, run_cons_of_eq hstep, ih (hz.insert hinsert) hbytes.2 hrest, typed_typed,
      List.singleton_append]

/-- Each typed byte makes a new line longer by one. -/
theorem length_of_run_typed {h : History} (hvalid : h.Valid) {bytes : List UInt8}
    (hbytes : ∀ c ∈ bytes, IsTyped c) (hlen : bytes.length ≤ lineSize) {p : Prompt}
    (hp : run pressKey ⟨h, .fresh⟩ (bytes.map Key.char) = some p) :
    p.line.length = bytes.length := by
  have hroom : bytes.length ≤ (Layout.fresh h).behind.length := by simpa [Layout.fresh] using hlen
  have hrun := Layout.run_typed (Layout.valid_fresh hvalid) hbytes hroom
  obtain rfl : p = _ := Option.some.inj (hp.symm.trans hrun)
  simp [Layout.prompt, Layout.typed, Layout.fresh, LineEditor.of]

/-- Without escapes every byte is a key. -/
theorem readKeys_eq_map {bytes : List UInt8} (h : 27 ∉ bytes) :
    readKeys bytes = bytes.map .char := by
  fun_induction readKeys bytes <;> simp_all

end AdMQ
