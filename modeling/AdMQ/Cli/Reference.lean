import AdMQ.Cli.Layout
import Mathlib.Data.List.DropRight
import Mathlib.Data.List.Infix

/-!
# The line editor and its reference

The reference editor keeps the line as a text with a cursor, every line that was ever
submitted and a view index; its history are the last fifty lines that are not empty.
The keys that arrive at the prompt are events for it, Enter being a typed byte if
`get_input` goes on with the line. As long as the line has at most 1023 bytes, the buffer
with its length and cursor index stands for the line of the reference, and the array of
lines for its history.
-/

namespace AdMQ

open Core

/-- What a key means to the user. -/
inductive EditEvent where
  | typed (c : UInt8)
  | backspace
  | left
  | right
  | up
  | down
  | submit
  | nothing
  deriving DecidableEq

/-- The reference editor. -/
structure ReferenceEditor where
  line : Zipper UInt8
  submitted : List CStr
  viewIdx : Nat
  deriving DecidableEq

namespace ReferenceEditor

/-- The last lines that are not empty, in order. -/
def history (r : ReferenceEditor) : List CStr := (r.submitted.filter (· ≠ [])).rtake maxHistory

def start : ReferenceEditor := ⟨.atEnd [], [], 0⟩

/-- The line at a view index is shown, which is empty past the end of the history. -/
def view (r : ReferenceEditor) (i : Nat) : ReferenceEditor :=
  { r with line := .atEnd (r.history[i]?.getD []), viewIdx := i }

/-- The line is submitted; unless it is empty, the view index is past the end of the history. -/
def submit (r : ReferenceEditor) : ReferenceEditor :=
  let next : ReferenceEditor := ⟨.atEnd [], r.submitted ++ [r.line.text], r.viewIdx⟩
  if r.line.text = [] then next else { next with viewIdx := next.history.length }

def step (r : ReferenceEditor) : EditEvent → ReferenceEditor
  | .typed c => { r with line := r.line.insert c }
  | .backspace => { r with line := r.line.backspace }
  | .left => { r with line := r.line.moveLeft }
  | .right => { r with line := r.line.moveRight }
  | .up => if 0 < r.viewIdx then r.view (r.viewIdx - 1) else r
  | .down => if r.viewIdx < r.history.length then r.view (r.viewIdx + 1) else r
  | .submit => r.submit
  | .nothing => r

end ReferenceEditor

/-- The event of a key, by whether `get_input` returns a line. -/
def Key.event (returned : Option CStr) : Key → EditEvent
  | .up => .up
  | .down => .down
  | .left => .left
  | .right => .right
  | .unknown => .nothing
  | .char c => if returned.isSome then .submit else if c = 127 then .backspace else .typed c

/-- Every byte but backspace is an event of its own. -/
theorem Key.event_of_typed {c : UInt8} (h : c ≠ 127) : Key.event none (.char c) = .typed c := by
  simp [Key.event, h]

/-- The events of the keys that arrive at the prompt. -/
def events : Prompt → List Key → List EditEvent
  | _, [] => []
  | p, k :: keys =>
    match p.press k with
    | none => []
    | some (p', returned) => k.event returned :: events p' keys

/-- A key of the keyboard: no byte is NUL or stands for the end of the input. -/
def IsEditKey : Key → Prop
  | .char c => c ≠ 0 ∧ c ≠ 255
  | _ => True

instance : (k : Key) → Decidable (IsEditKey k)
  | .char c => inferInstanceAs (Decidable (c ≠ 0 ∧ c ≠ 255))
  | .up | .down | .left | .right | .unknown => .isTrue trivial

/-- The line as the reference editor has it. -/
def LineEditor.zipper (e : LineEditor) : Zipper UInt8 :=
  .ofIndex (e.buffer.take e.length) e.cursorIdx

/-- The variables of `get_input` stand for a state of the reference editor. -/
structure Prompt.Represents (p : Prompt) (r : ReferenceEditor) : Prop where
  cursorIdx_le : p.line.cursorIdx ≤ p.line.length
  viewIdx_le : p.history.viewIdx ≤ p.history.entries.count
  line : p.line.zipper = r.line
  length : p.line.length = r.line.text.length
  viewIdx : p.history.viewIdx = r.viewIdx
  history : p.history.entries.live = r.history

/-! ## The history -/

/-- Of the last elements of a longer list, the oldest is missing if there were enough before. -/
theorem rtake_concat {α : Type*} (xs : List α) (x : α) {n : Nat} (hn : 0 < n) :
    (xs ++ [x]).rtake n =
      (if (xs.rtake n).length = n then (xs.rtake n).tail else xs.rtake n) ++ [x] := by
  have hlen : (xs ++ [x]).length = xs.length + 1 := List.length_append
  have hlast (k : Nat) (hk : k ≤ xs.length) : (xs ++ [x]).drop k = xs.drop k ++ [x] :=
    List.drop_append_of_le_length hk
  simp only [List.rtake.eq_1, hlen, List.length_drop, List.tail_drop]
  by_cases hfull : n ≤ xs.length
  · rw [if_pos (by omega), hlast _ (by omega)]
    congr 2
    omega
  · rw [if_neg (by omega), hlast _ (by omega)]
    congr 2
    omega

/-- A line that is not empty becomes the last one, and the oldest of fifty goes. -/
theorem live_addHistory (h : History) (cmd : CStr) : (addHistory h cmd).entries.live =
    if cmd = [] then h.entries.live
    else (if h.entries.live.length = maxHistory then h.entries.live.tail else h.entries.live) ++
      [cmd.take (lineSize - 1)] := by
  by_cases hcmd : cmd = []
  · rw [if_pos hcmd, hcmd]
    rfl
  · rw [addHistory, if_neg (mt List.length_eq_zero_iff.mp hcmd), if_neg hcmd, Slots.live_push,
      History.live_makeRoom, Slots.length_live]

/-- The view starts behind the last line, unless nothing was added. -/
theorem viewIdx_addHistory (h : History) (cmd : CStr) : (addHistory h cmd).viewIdx =
    if cmd = [] then h.viewIdx else (addHistory h cmd).entries.live.length := by
  rw [Slots.length_live]
  by_cases hcmd : cmd = []
  · rw [if_pos hcmd, hcmd]
    rfl
  · rw [addHistory, if_neg (mt List.length_eq_zero_iff.mp hcmd), if_neg hcmd]
    rfl

namespace ReferenceEditor

variable (r : ReferenceEditor)

variable {r} in
/-- The history is that of the submitted lines. -/
theorem history_congr {r' : ReferenceEditor} (h : r'.submitted = r.submitted) :
    r'.history = r.history := by
  rw [history, history, h]

/-- A submitted line leaves an empty one. -/
theorem line_submit : r.submit.line = .atEnd [] := by
  rw [submit]
  split <;> rfl

/-- The reference editor starts its view behind the last line as well. -/
theorem viewIdx_submit :
    r.submit.viewIdx = if r.line.text = [] then r.viewIdx else r.submit.history.length := by
  rw [submit]
  split
  · rfl
  · exact congrArg List.length (history_congr rfl)

/-- Of the submitted lines the last fifty are the history. -/
theorem history_submit : r.submit.history =
    if r.line.text = [] then r.history
    else (if r.history.length = maxHistory then r.history.tail else r.history) ++
      [r.line.text] := by
  rw [submit]
  split
  · next hempty =>
    have hfilter : (r.submitted ++ [r.line.text]).filter (· ≠ []) =
        r.submitted.filter (· ≠ []) := by simp [hempty]
    rw [history, hfilter, history]
  · next hne =>
    have hfilter : (r.submitted ++ [r.line.text]).filter (· ≠ []) =
        r.submitted.filter (· ≠ []) ++ [r.line.text] := by simp [hne]
    rw [history, hfilter, history, rtake_concat _ _ (by decide : 0 < maxHistory)]

end ReferenceEditor

/-! ## The simulation -/

/-- The parts of the buffer stand for the state of the reference editor. -/
structure Layout.Simulates (z : Layout) (r : ReferenceEditor) : Prop where
  valid : z.Valid
  line : r.line = z.line
  nul_notMem : 0 ∉ z.text
  viewIdx : z.history.viewIdx = r.viewIdx
  history : z.history.entries.live = r.history

namespace Layout.Simulates

variable {z : Layout} {r : ReferenceEditor}

/-- Both editors show the same line. -/
theorem text (h : z.Simulates r) : r.line.text = z.text := by
  rw [h.line, z.text_eq]

/-- The variables stand for the state that they simulate. -/
theorem represents (h : z.Simulates r) : z.prompt.Represents r := by
  have hlen : z.left.length + z.right.length = (z.left ++ z.right).length :=
    List.length_append.symm
  have hline : z.prompt.line.zipper = z.line := by
    change Zipper.ofIndex ((z.left ++ z.right ++ z.behind).take (z.left.length + z.right.length))
      z.left.length = _
    rw [hlen, List.take_left]
    exact z.line.ofIndex_text
  exact ⟨Nat.le_add_right _ _, h.valid.history.viewIdx_le, hline.trans h.line.symm,
    hlen.trans (congrArg List.length h.text.symm), h.viewIdx, h.history⟩

/-- Both editors start with an empty line and an empty history. -/
theorem start : (Layout.fresh .empty).Simulates .start :=
  ⟨valid_fresh History.empty_valid, rfl, List.not_mem_nil, rfl, Slots.live_empty []⟩

/-- Both editors show the same line at a view index. -/
theorem lineAt (h : z.Simulates r) (i : Nat) : z.history.lineAt i = r.history[i]?.getD [] := by
  rw [History.lineAt, h.history]

/-- A line of the history takes the place of the line in both. -/
theorem view (h : z.Simulates r) {i : Nat} (hi : i ≤ z.history.entries.count) :
    (z.view i).Simulates (r.view i) := by
  refine ⟨h.valid.view hi, ?_, ?_, rfl, h.history.trans (ReferenceEditor.history_congr rfl)⟩
  · rw [ReferenceEditor.view, ← h.lineAt]
    rfl
  · rw [Layout.text]
    exact (List.append_nil _).symm ▸ h.valid.history.nul_notMem_lineAt i

/-- An edit of the line leaves the history alone. -/
theorem edit (h : z.Simulates r) {z' : Layout} (hvalid : z'.Valid)
    (hhistory : z'.history = z.history) {line : Zipper UInt8} (hline : z'.line = line)
    (hnul : 0 ∉ line.text) : z'.Simulates { r with line := line } := by
  refine ⟨hvalid, hline.symm, ?_, ?_, ?_⟩
  · rw [z'.text_eq, hline]
    exact hnul
  · rw [hhistory]
    exact h.viewIdx
  · rw [hhistory]
    exact h.history.trans (ReferenceEditor.history_congr rfl)

theorem nul_notMem_line (h : z.Simulates r) : 0 ∉ r.line.text := h.text ▸ h.nul_notMem

/-- A byte that fits is inserted in both. -/
theorem insert (h : z.Simulates r) {c : UInt8} (hc : c ≠ 0) (hlen : z.text.length < lineSize) :
    ∃ z', z.insert c = some z' ∧ z'.Simulates { r with line := r.line.insert c } := by
  have hinsert := insert_eq_typed c (h.valid.behind_ne_nil hlen)
  refine ⟨_, hinsert, h.edit (h.valid.insert hinsert) rfl ?_ fun hmem => ?_⟩
  · rw [h.line]
    rfl
  · rcases (Zipper.mem_text_insert _).mp hmem with hzero | hmem
    · exact hc hzero.symm
    · exact h.nul_notMem_line hmem

/-- A byte is erased in both. -/
theorem backspace (h : z.Simulates r) :
    z.backspace.Simulates { r with line := r.line.backspace } :=
  h.edit h.valid.backspace z.history_backspace (by rw [h.line, z.line_backspace]) fun hmem =>
    h.nul_notMem_line (Zipper.mem_text_of_backspace _ hmem)

theorem moveLeft (h : z.Simulates r) :
    z.moveLeft.Simulates { r with line := r.line.moveLeft } :=
  h.edit h.valid.moveLeft z.history_moveLeft (by rw [h.line, z.line_moveLeft])
    (r.line.text_moveLeft ▸ h.nul_notMem_line)

theorem moveRight (h : z.Simulates r) :
    z.moveRight.Simulates { r with line := r.line.moveRight } :=
  h.edit h.valid.moveRight z.history_moveRight (by rw [h.line, z.line_moveRight])
    (r.line.text_moveRight ▸ h.nul_notMem_line)

/-- Both editors add the same line to their histories. -/
theorem submit (h : z.Simulates r) (hlen : z.text.length < lineSize) :
    (z.submit (cstr z.text)).1.Simulates r.submit := by
  have htake : z.text.take (lineSize - 1) = z.text :=
    List.take_of_length_le (Nat.le_sub_one_of_lt hlen)
  have hlive : (addHistory z.history z.text).entries.live = r.submit.history := by
    rw [live_addHistory, htake, h.history, r.history_submit, h.text]
  rw [cstr_eq_self h.nul_notMem]
  refine ⟨h.valid.submit h.nul_notMem, r.line_submit, List.not_mem_nil, ?_, hlive⟩
  change (addHistory z.history z.text).viewIdx = r.submit.viewIdx
  rw [viewIdx_addHistory, hlive, r.viewIdx_submit, h.text, h.viewIdx]

/-- Each key does to the parts of the buffer what its event does to the reference editor. -/
theorem press (h : z.Simulates r) {k : Key} (hk : IsEditKey k) (hlen : z.text.length < lineSize) :
    ∃ z' returned, z.press k = some (z', returned) ∧ z'.Simulates (r.step (k.event returned)) := by
  cases k with
  | up =>
    refine ⟨_, none, by rw [Layout.press, h.valid.up_eq]; rfl, ?_⟩
    have hle := h.valid.history.viewIdx_le
    rw [Key.event, ReferenceEditor.step, ← h.viewIdx]
    split
    · exact h.view (by omega)
    · exact h
  | down =>
    refine ⟨_, none, by rw [Layout.press, z.down_eq]; rfl, ?_⟩
    rw [Key.event, ReferenceEditor.step, ← h.viewIdx, ← h.history, Slots.length_live]
    split
    · next hlt => exact h.view hlt
    · exact h
  | left => exact ⟨_, none, rfl, h.moveLeft⟩
  | right => exact ⟨_, none, rfl, h.moveRight⟩
  | unknown => exact ⟨_, none, rfl, h⟩
  | char c =>
    obtain ⟨hc, hend⟩ := hk
    obtain ⟨z', hinsert, hz'⟩ := h.insert hc hlen
    have hgoOn : (z.insert c).map goOn = some (z', none) := by
      rw [hinsert]
      rfl
    rw [Layout.press, char, if_neg hend]
    by_cases henter : c = newline ∨ c = byte '\r'
    · have hback : c ≠ 127 := by
        rintro rfl
        exact absurd henter (by decide)
      rw [if_pos henter, enter]
      split
      · next hfull =>
        rw [Layout.insert, hfull] at hinsert
        cases hinsert
      · split
        · -- An Enter that is typed.
          refine ⟨z', none, hgoOn, ?_⟩
          rw [Key.event_of_typed hback]
          exact hz'
        · exact ⟨_, _, rfl, h.submit hlen⟩
    · rw [if_neg henter]
      split
      · next hback =>
        refine ⟨_, none, rfl, ?_⟩
        rw [hback]
        exact h.backspace
      · next hback =>
        refine ⟨z', none, hgoOn, ?_⟩
        rw [Key.event_of_typed hback]
        exact hz'

/-- So does a run, in which the line always leaves a byte of the buffer behind it. -/
theorem run (h : z.Simulates r) {keys : List Key} (hkeys : ∀ k ∈ keys, IsEditKey k)
    (hlen : ∀ front p, front <+: keys → Core.run pressKey z.prompt front = some p →
      p.line.length < lineSize) :
    ∃ z' : Layout, Core.run pressKey z.prompt keys = some z'.prompt ∧
      z'.Simulates ((events z.prompt keys).foldl ReferenceEditor.step r) := by
  induction keys generalizing z r with
  | nil => exact ⟨z, rfl, h⟩
  | cons k keys ih =>
    rw [List.forall_mem_cons] at hkeys
    have hline : z.text.length < lineSize := by
      rw [Layout.text, List.length_append]
      exact hlen [] z.prompt List.nil_prefix rfl
    obtain ⟨z₁, returned, hpress, hz₁⟩ := h.press hkeys.1 hline
    have hprompt : z.prompt.press k = some (z₁.prompt, returned) := by
      rw [press_prompt h.valid, hpress]
      rfl
    have hstep : pressKey z.prompt k = some z₁.prompt := by
      rw [pressKey, hprompt]
      rfl
    have hevents : events z.prompt (k :: keys) = k.event returned :: events z₁.prompt keys := by
      rw [events, hprompt]
    rw [run_cons_of_eq hstep, hevents, List.foldl_cons]
    refine ih hz₁ hkeys.2 fun front p hfront hrun => ?_
    exact hlen (k :: front) p (List.cons_prefix_cons.mpr ⟨rfl, hfront⟩)
      ((run_cons_of_eq hstep front).trans hrun)

end Layout.Simulates

/-- At every moment of a run in which the line never has more than 1023 bytes, the variables of
`get_input` stand for the state of the reference editor. -/
theorem run_represents {keys : List Key} (hkeys : ∀ k ∈ keys, IsEditKey k)
    (hlen : ∀ front p, front <+: keys → run pressKey ⟨.empty, .fresh⟩ front = some p →
      p.line.length ≤ 1023) :
    ∃ p, run pressKey ⟨.empty, .fresh⟩ keys = some p ∧
      p.Represents ((events ⟨.empty, .fresh⟩ keys).foldl ReferenceEditor.step .start) := by
  have hbelow (n : Nat) (hn : n ≤ 1023) : n < lineSize := Nat.lt_succ_of_le hn
  obtain ⟨z, hrun, hz⟩ := Layout.Simulates.start.run hkeys
    fun front p hfront hrun => hbelow _ (hlen front p hfront hrun)
  exact ⟨z.prompt, hrun, hz.represents⟩

/-- Two lines are submitted, the first of them is shown again and edited in the middle. -/
def someKeys : List Key :=
  (ascii "ab\nc\n").map .char ++ [.up, .up, .left, .char (byte 'x'), .left, .char 127]

theorem run_represents_someKeys : ∃ p, run pressKey ⟨.empty, .fresh⟩ someKeys = some p ∧
    p.Represents ⟨⟨[], ascii "xb"⟩, [ascii "ab", ascii "c"], 0⟩ := by
  have hkeys : ∀ k ∈ someKeys, IsEditKey k := by decide +kernel
  have hlen : ∀ front ∈ someKeys.inits, ∀ p ∈ run pressKey ⟨.empty, .fresh⟩ front,
      p.line.length ≤ 1023 := by decide +kernel
  have hreference : (events ⟨.empty, .fresh⟩ someKeys).foldl ReferenceEditor.step .start =
      ⟨⟨[], ascii "xb"⟩, [ascii "ab", ascii "c"], 0⟩ := by decide +kernel
  rw [← hreference]
  exact run_represents hkeys fun front p hfront hrun =>
    hlen front ((List.mem_inits _ _).mpr hfront) p hrun

end AdMQ
