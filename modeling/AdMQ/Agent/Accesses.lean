import AdMQ.Agent.Tokenizer
import AdMQ.Core.Memory
import Mathlib.Logic.Relation

/-!
# Memory accesses of the tokenizer

`tokenize_command` on its variables: an index into the text, `arg_buffer` with the
number of its bytes in use, and a signed depth. Every access is checked: a write
outside of the array, a read of a byte that was not written for the current token and
a read behind the terminator of the text have no result. On every text the function
makes none of them and does what the scanner does.
-/

namespace AdMQ

open Core

/-- The bytes of `arg_buffer` when a token begins: none of them was written for it. -/
def unwritten : List (Option UInt8) := List.replicate maxCmdLen none

/-- The variables of `tokenize_command` as they lie in memory. -/
structure RawScanner where
  argv : List CStr := []
  i : Nat := 0
  buffPosition : Nat := 0
  argBuffer : List (Option UInt8) := unwritten
  subshellDepth : Int := 0
  singleQuote : Bool := false
  doubleQuote : Bool := false
  charEscaped : Bool := false

/-- `input_str[i]`, up to the terminator. -/
def inputAt (inputStr : CStr) (i : Nat) : Option UInt8 := (inputStr ++ [0])[i]?

/-- What `tokenize_command` returns, with the arguments behind `argv_ptr`. Their number is taken
as an integer of any size; a text has at most as many as it has bytes. -/
structure Tokenized where
  argc : Int
  argv : List CStr
  deriving DecidableEq

/-- The arguments, unless the count says that there was no room for one. -/
def Tokenized.accepted (t : Tokenized) : Option (List CStr) :=
  if t.argc = -1 then none else some t.argv

namespace RawScanner

/-- `arg_buffer[buff_position++] = c`. -/
def put (v : RawScanner) (c : UInt8) : Option RawScanner :=
  (store v.argBuffer v.buffPosition (some c)).map fun cells =>
    { v with argBuffer := cells, buffPosition := v.buffPosition + 1 }

/-- `add_arg` of an operator. -/
def addArg (v : RawScanner) (token : CStr) : RawScanner := { v with argv := v.argv ++ [token] }

/-- The bytes in use, if there are any, are terminated and copied into an argument. -/
def endToken (v : RawScanner) : Option RawScanner :=
  if 0 < v.buffPosition then do
    let cells ← store v.argBuffer v.buffPosition (some 0)
    let token ← strdup cells
    some { v.addArg token with buffPosition := 0, argBuffer := unwritten }
  else some v

/-- An opening bracket behind a `$` in the buffer. -/
def opensSubshell (v : RawScanner) (c : UInt8) : Option Bool :=
  if c = byte '(' ∧ 0 < v.buffPosition then
    (load v.argBuffer (v.buffPosition - 1)).map (· == byte '$')
  else some false

/-- An operator that stands twice; only behind one that can is the next byte looked at. -/
def isTwice (inputStr : CStr) (v : RawScanner) (c : UInt8) : Option Bool :=
  if isDoubled c then (inputAt inputStr (v.i + 1)).map (· == c) else some false

/-- The end of the operator's branch, outside of `$(`. -/
def addOperator (inputStr : CStr) (v : RawScanner) (c : UInt8) : Option RawScanner := do
  let v ← v.endToken
  let twice ← v.isTwice inputStr c
  if twice then some { v.addArg [c, c] with i := v.i + 1 } else some (v.addArg [c])

/-- The branch of an operator outside quotes. -/
def scanOperator (inputStr : CStr) (v : RawScanner) (c : UInt8) : Option RawScanner := do
  let opens ← v.opensSubshell c
  if opens then put { v with subshellDepth := v.subshellDepth + 1 } c
  else if c = byte ')' ∧ 0 < v.subshellDepth then
    put { v with subshellDepth := v.subshellDepth - 1 } c
  else if 0 < v.subshellDepth then v.put c
  else v.addOperator inputStr c

/-- The branches of the loop's body. -/
def scan (inputStr : CStr) (v : RawScanner) (c : UInt8) : Option RawScanner :=
  if v.charEscaped then put { v with charEscaped := false } c
  else if !v.singleQuote ∧ !v.doubleQuote ∧ isOperator c then v.scanOperator inputStr c
  else if isBlank c then
    if v.singleQuote ∨ v.doubleQuote ∨ 0 < v.subshellDepth then v.put c else v.endToken
  else if c = singleMark ∧ !v.doubleQuote then some { v with singleQuote := !v.singleQuote }
  else if c = doubleMark ∧ !v.singleQuote then some { v with doubleQuote := !v.doubleQuote }
  else if c = backslash ∧ !v.doubleQuote ∧ !v.singleQuote then some { v with charEscaped := true }
  else v.put c

/-- One pass of the loop; `some none` is the return of -1. -/
def pass (inputStr : CStr) (v : RawScanner) : Option (Option RawScanner) := do
  let c ← inputAt inputStr v.i
  if maxCmdLen - 1 ≤ v.buffPosition then some none
  else
    let v ← v.scan inputStr c
    some (some { v with i := v.i + 1 })

/-- What follows the loop. -/
def finish (v : RawScanner) : Option Tokenized :=
  v.endToken.map fun v => ⟨v.argv.length, v.argv⟩

/-- The loop and what follows it; also `none` if it takes more than `fuel` passes. -/
def loop (inputStr : CStr) : Nat → RawScanner → Option Tokenized
  | 0, v => if v.i < inputStr.length then none else v.finish
  | fuel + 1, v =>
    if v.i < inputStr.length then
      match v.pass inputStr with
      | none => none
      | some none => some ⟨-1, v.argv⟩
      | some (some v) => loop inputStr fuel v
    else v.finish

/-- `tokenize_command`; `none` if an access falls outside of what may be accessed. -/
def tokenizeCommand (inputStr : CStr) : Option Tokenized := loop inputStr inputStr.length {}

/-- A pass that leads from one evaluation of the loop's condition to the next. -/
def Continues (inputStr : CStr) (v v' : RawScanner) : Prop :=
  v.i < inputStr.length ∧ v.pass inputStr = some (some v')

/-- The variables whenever the condition of the loop is evaluated, from given ones on. -/
def Visits (inputStr : CStr) : RawScanner → RawScanner → Prop :=
  Relation.ReflTransGen (Continues inputStr)

/-- A token fills the buffer while input is left. -/
def Full (inputStr : CStr) (v : RawScanner) : Prop :=
  v.buffPosition = 1023 ∧ v.i < inputStr.length

/-- The variables are in their ranges, and what is done next keeps to the memory. The arguments
are no more than the bytes read, and the depth is no more than the bytes in use. -/
structure Within (inputStr : CStr) (v : RawScanner) : Prop where
  position : v.buffPosition ≤ 1023
  depth : 0 ≤ v.subshellDepth ∧ v.subshellDepth ≤ v.buffPosition
  index : v.i ≤ inputStr.length
  count : v.argv.length + v.buffPosition ≤ v.i
  pass : v.i < inputStr.length → v.pass inputStr ≠ none
  finish : v.i = inputStr.length → v.finish ≠ none

end RawScanner

/-! ## The scanner in memory -/

namespace Scanner

/-- A scanner in front of the byte with an index, as it lies in memory. -/
def raw (s : Scanner) (i : Nat) : RawScanner :=
  ⟨s.argv, i, s.argBuffer.length, frontWritten maxCmdLen s.argBuffer, s.subshellDepth,
    s.singleQuote, s.doubleQuote, s.charEscaped⟩

/-- The token under construction leaves room for its terminator and holds no NUL, and it holds
the `$(` that are open. -/
structure Fits (s : Scanner) : Prop where
  length_lt : s.argBuffer.length < maxCmdLen
  nul_notMem : 0 ∉ s.argBuffer
  depth_le : s.subshellDepth ≤ s.argBuffer.length

/-- An iteration's result as it lies in memory; the index is beyond a byte that was consumed
as well. -/
def rawResult (r : Scanner × Bool) (i : Nat) : RawScanner := r.1.raw (if r.2 then i + 1 else i)

variable {s : Scanner} {c : UInt8} {i : Nat} {inputStr : CStr} {next : Option UInt8}

theorem raw_put (h : s.argBuffer.length < maxCmdLen) (c : UInt8) (i : Nat) :
    (s.raw i).put c = some ((s.push c).raw i) := by
  rw [RawScanner.put, raw, store_frontWritten h, raw, push, List.length_append]
  rfl

theorem raw_endToken (h : s.argBuffer.length < maxCmdLen) (hnul : 0 ∉ s.argBuffer) (i : Nat) :
    (s.raw i).endToken = some (s.flush.raw i) := by
  by_cases hempty : s.argBuffer = []
  · have hzero : ¬ 0 < (s.raw i).buffPosition := by
      rw [raw, hempty]
      exact Nat.lt_irrefl 0
    rw [RawScanner.endToken, if_neg hzero, flush, if_pos hempty]
  · have hpos : 0 < (s.raw i).buffPosition := List.length_pos_iff.mpr hempty
    rw [RawScanner.endToken, if_pos hpos, flush, if_neg hempty, raw, store_frontWritten h,
      Option.bind_eq_bind, Option.bind_some, strdup_frontWritten _ hnul]
    rfl

theorem raw_opensSubshell (s : Scanner) (c : UInt8) (i : Nat) :
    (s.raw i).opensSubshell c =
      some (decide (c = byte '(' ∧ s.argBuffer.getLast? = some (byte '$'))) := by
  by_cases hempty : s.argBuffer = []
  · have hzero : ¬ (c = byte '(' ∧ 0 < (s.raw i).buffPosition) := by
      rw [raw, hempty]
      exact fun h => Nat.lt_irrefl 0 h.2
    rw [RawScanner.opensSubshell, if_neg hzero, hempty]
    simp
  · have hpos : 0 < (s.raw i).buffPosition := List.length_pos_iff.mpr hempty
    by_cases hopen : c = byte '('
    · rw [RawScanner.opensSubshell, if_pos ⟨hopen, hpos⟩, raw, load_frontWritten _ hempty,
        List.getLast?_eq_some_getLast hempty, Option.map_some]
      simp [hopen, beq_eq_decide]
    · rw [RawScanner.opensSubshell, if_neg fun h => hopen h.1]
      simp [hopen]

/-- The terminator is not taken for the second of two operators. -/
theorem raw_isTwice (hnext : inputAt inputStr (i + 1) = some (next.getD 0)) (s : Scanner)
    (c : UInt8) :
    (s.raw i).isTwice inputStr c = some (decide (isDoubled c = true ∧ next = some c)) := by
  by_cases hdouble : isDoubled c = true
  · have hc : c ≠ 0 := by
      rintro rfl
      cases hdouble
    rw [RawScanner.isTwice, if_pos hdouble, raw, hnext, Option.map_some]
    cases next with
    | none => simp [hdouble, hc.symm]
    | some d => simp [hdouble, beq_eq_decide]
  · rw [RawScanner.isTwice, if_neg hdouble]
    simp [hdouble]

/-- An iteration of the scanner in memory. -/
theorem raw_scanOperator (hnext : inputAt inputStr (i + 1) = some (next.getD 0))
    (h : s.argBuffer.length < maxCmdLen) (hnul : 0 ∉ s.argBuffer) (c : UInt8) :
    (s.raw i).scanOperator inputStr c = some (rawResult (s.scanOperator c next) i) := by
  rw [RawScanner.scanOperator, raw_opensSubshell, Option.bind_eq_bind, Option.bind_some,
    scanOperator]
  by_cases hopen : c = byte '(' ∧ s.argBuffer.getLast? = some (byte '$')
  · rw [if_pos (decide_eq_true hopen), if_pos hopen]
    exact raw_put (s := { s with subshellDepth := s.subshellDepth + 1 }) h c i
  rw [if_neg (by simpa using hopen), if_neg hopen]
  by_cases hdepth : 0 < s.subshellDepth
  · have hdepth' : 0 < (s.raw i).subshellDepth := Int.natCast_pos.mpr hdepth
    by_cases hclose : c = byte ')'
    · rw [if_pos ⟨hclose, hdepth'⟩, if_pos ⟨hclose, hdepth⟩]
      have hcast : (s.raw i).subshellDepth - 1 = ((s.subshellDepth - 1 : Nat) : Int) :=
        (Int.natCast_sub hdepth).symm
      rw [hcast]
      exact raw_put (s := { s with subshellDepth := s.subshellDepth - 1 }) h c i
    · rw [if_neg fun hc => hclose hc.1, if_pos hdepth', if_neg fun hc => hclose hc.1,
        if_pos hdepth]
      exact raw_put h c i
  · have hdepth' : ¬ 0 < (s.raw i).subshellDepth := fun hpos => hdepth (Int.natCast_pos.mp hpos)
    rw [if_neg fun hc => hdepth' hc.2, if_neg hdepth', if_neg fun hc => hdepth hc.2, if_neg hdepth,
      RawScanner.addOperator, raw_endToken h hnul, Option.bind_eq_bind, Option.bind_some,
      raw_isTwice hnext, Option.bind_eq_bind, Option.bind_some]
    by_cases htwice : isDoubled c = true ∧ next = some c
    · rw [if_pos (decide_eq_true htwice), if_pos htwice]
      rfl
    · rw [if_neg (by simpa using htwice), if_neg htwice]
      rfl

theorem raw_scan (hnext : inputAt inputStr (i + 1) = some (next.getD 0))
    (h : s.argBuffer.length < maxCmdLen) (hnul : 0 ∉ s.argBuffer) (c : UInt8) :
    (s.raw i).scan inputStr c = some (rawResult (s.scan c next) i) := by
  have hput := raw_put h c i
  have hquoted : ((s.raw i).singleQuote = true ∨ (s.raw i).doubleQuote = true ∨
      0 < (s.raw i).subshellDepth) =
        (s.singleQuote = true ∨ s.doubleQuote = true ∨ 0 < s.subshellDepth) := by
    rw [raw, Int.natCast_pos]
  rw [RawScanner.scan, scan]
  simp only [apply_ite fun r => some (rawResult r i)]
  -- the branches are those of the source, one by one
  refine ite_congr rfl (fun _ => ?_) fun _ => ite_congr rfl (fun _ => ?_) fun _ =>
    ite_congr rfl (fun _ => ite_congr hquoted (fun _ => hput) fun _ => ?_) fun _ =>
      ite_congr rfl (fun _ => rfl) fun _ => ite_congr rfl (fun _ => rfl) fun _ =>
        ite_congr rfl (fun _ => rfl) fun _ => hput
  · exact raw_put (s := { s with charEscaped := false }) h c i
  · exact raw_scanOperator hnext h hnul c
  · exact raw_endToken h hnul i

/-! ## What a token holds -/

theorem fits_of_argBuffer_eq_nil (hbuffer : s.argBuffer = []) (hdepth : s.subshellDepth = 0) :
    s.Fits := by
  refine ⟨?_, ?_, hdepth ▸ Nat.zero_le _⟩
  · rw [hbuffer]
    decide
  · rw [hbuffer]
    exact List.not_mem_nil

theorem Fits.of_eq (hfits : s.Fits) {s' : Scanner} (hbuffer : s'.argBuffer = s.argBuffer)
    (hdepth : s'.subshellDepth = s.subshellDepth) : s'.Fits := by
  refine ⟨?_, ?_, ?_⟩
  · rw [hbuffer]
    exact hfits.length_lt
  · rw [hbuffer]
    exact hfits.nul_notMem
  · rw [hbuffer, hdepth]
    exact hfits.depth_le

/-- A byte that is pushed opens at most one `$(`. -/
theorem Fits.of_push (hfits : s.Fits) (hroom : s.HasRoom) (hc : c ≠ 0) {s' : Scanner}
    (hbuffer : s'.argBuffer = s.argBuffer ++ [c])
    (hdepth : s'.subshellDepth ≤ s.subshellDepth + 1) : s'.Fits := by
  have hlen : s'.argBuffer.length = s.argBuffer.length + 1 := by
    rw [hbuffer, List.length_append, List.length_singleton]
  have hle := hfits.depth_le
  refine ⟨?_, ?_, ?_⟩
  · rw [hlen]
    exact Nat.add_lt_of_lt_sub hroom
  · rw [hbuffer, List.mem_append, List.mem_singleton, not_or]
    exact ⟨hfits.nul_notMem, hc.symm⟩
  · omega

/-- Outside of `$(` the token ends with nothing open. -/
theorem fits_flush (hdepth : ¬ 0 < s.subshellDepth) : s.flush.Fits := by
  have hsame : s.flush.subshellDepth = s.subshellDepth := by
    unfold flush
    split_ifs <;> rfl
  exact fits_of_argBuffer_eq_nil s.argBuffer_flush
    (hsame.trans (Nat.eq_zero_of_not_pos hdepth))

theorem Fits.scanOperator (hfits : s.Fits) (hroom : s.HasRoom) (hc : c ≠ 0)
    (next : Option UInt8) : (s.scanOperator c next).1.Fits := by
  rw [Scanner.scanOperator]
  split_ifs with _ _ hdepth
  · exact hfits.of_push hroom hc rfl (Nat.le_refl _)
  · exact hfits.of_push hroom hc rfl ((Nat.sub_le _ _).trans (Nat.le_succ _))
  · exact hfits.of_push hroom hc rfl (Nat.le_succ _)
  · exact (fits_flush hdepth).of_eq rfl rfl
  · exact (fits_flush hdepth).of_eq rfl rfl

/-- A token is ended only outside of `$(`, so that those that are open stand in the buffer. -/
theorem Fits.scan (hfits : s.Fits) (hroom : s.HasRoom) (hc : c ≠ 0) (next : Option UInt8) :
    (s.scan c next).1.Fits := by
  rw [Scanner.scan]
  split_ifs with _ _ _ hquoted
  · exact hfits.of_push hroom hc rfl (Nat.le_succ _)
  · exact hfits.scanOperator hroom hc next
  · exact hfits.of_push hroom hc rfl (Nat.le_succ _)
  · exact fits_flush fun hpos => hquoted (Or.inr (Or.inr hpos))
  · exact hfits.of_eq rfl rfl
  · exact hfits.of_eq rfl rfl
  · exact hfits.of_eq rfl rfl
  · exact hfits.of_push hroom hc rfl (Nat.le_succ _)

/-- The arguments and the bytes of the token under construction. -/
def size (s : Scanner) : Nat := s.argv.length + s.argBuffer.length

theorem size_push (s : Scanner) (c : UInt8) : (s.push c).size = s.size + 1 := by
  rw [size, push, List.length_append]
  rfl

theorem size_addArg (s : Scanner) (token : CStr) : (s.addArg token).size = s.size + 1 := by
  simp only [size, addArg, List.length_append, List.length_singleton]
  omega

theorem size_flush_le (s : Scanner) : s.flush.size ≤ s.size := by
  rw [flush]
  split_ifs with h
  · exact Nat.le_refl _
  · have hpos := List.length_pos_iff.mpr h
    simp only [size, addArg, List.length_append, List.length_singleton, List.length_nil]
    omega

theorem size_scanOperator_le (s : Scanner) (c : UInt8) (next : Option UInt8) :
    (s.scanOperator c next).1.size ≤ s.size + 1 := by
  have hpush := (s.size_push c).le
  have hflush := s.size_flush_le
  rw [scanOperator]
  split_ifs
  · exact hpush
  · exact hpush
  · exact hpush
  · rw [size_addArg]
    exact Nat.succ_le_succ hflush
  · rw [size_addArg]
    exact Nat.succ_le_succ hflush

/-- Every byte read adds at most one of both. -/
theorem size_scan_le (s : Scanner) (c : UInt8) (next : Option UInt8) :
    (s.scan c next).1.size ≤ s.size + 1 := by
  have hpush := (s.size_push c).le
  rw [scan]
  split_ifs
  · exact hpush
  · exact s.size_scanOperator_le c next
  · exact hpush
  · exact s.size_flush_le.trans (Nat.le_succ _)
  · exact Nat.le_succ _
  · exact Nat.le_succ _
  · exact Nat.le_succ _
  · exact hpush

/-! ## The passes of the loop -/

/-- At an index within the text the byte there is read, and at its end the terminator. -/
theorem inputAt_eq_some (hi : i ≤ inputStr.length) :
    inputAt inputStr i = some ((inputStr.drop i).head?.getD 0) := by
  rw [inputAt, List.head?_drop]
  rcases Nat.lt_or_eq_of_le hi with hlt | rfl
  · rw [List.getElem?_append_left hlt, List.getElem?_eq_getElem hlt]
    rfl
  · rw [List.getElem?_append_right (Nat.le_refl _), Nat.sub_self,
      List.getElem?_eq_none (Nat.le_refl _)]
    rfl

/-- Everything a pass can do: without room it returns -1; otherwise it does what the scanner does,
and the index passes what was consumed and stays within the text. -/
theorem raw_pass_cases (hnul : 0 ∉ inputStr) (hfits : s.Fits) (hi : i < inputStr.length) :
    ¬ s.HasRoom ∧ s.scanAll (inputStr.drop i) = none ∧
        (s.raw i).pass inputStr = some none ∨
      s.HasRoom ∧ ∃ (s' : Scanner) (j : Nat),
        (s.raw i).pass inputStr = some (some (s'.raw j)) ∧ s'.Fits ∧
        s'.size + i ≤ s.size + j ∧ i < j ∧ j ≤ inputStr.length ∧
        s.scanAll (inputStr.drop i) = s'.scanAll (inputStr.drop j) := by
  have hdrop := List.drop_eq_getElem_cons hi
  have hhere := inputAt_eq_some (Nat.le_of_lt hi)
  have hahead : inputAt inputStr (i + 1) = some ((inputStr.drop (i + 1)).head?.getD 0) :=
    inputAt_eq_some hi
  rw [hdrop, List.head?_cons, Option.getD_some] at hhere
  have hc : inputStr[i] ≠ 0 := fun h => hnul (h ▸ List.getElem_mem hi)
  generalize inputStr[i] = c at hdrop hhere hc
  rw [RawScanner.pass, show (s.raw i).i = i from rfl, hhere, Option.bind_eq_bind,
    Option.bind_some, hdrop]
  by_cases hroom : s.HasRoom
  · have hpos : ¬ maxCmdLen - 1 ≤ (s.raw i).buffPosition := Nat.not_le.mpr hroom
    have hfits' := hfits.scan hroom hc (inputStr.drop (i + 1)).head?
    have hsize := s.size_scan_le c (inputStr.drop (i + 1)).head?
    rw [if_neg hpos, raw_scan hahead hfits.length_lt hfits.nul_notMem, rawResult]
    refine Or.inr ⟨hroom, ?_⟩
    cases hflag : (s.scan c (inputStr.drop (i + 1)).head?).2 with
    | false =>
      refine ⟨_, i + 1, rfl, hfits', by omega, Nat.lt_succ_self i, hi, ?_⟩
      rw [scanAll_single hroom hflag, scan_single hflag]
    | true =>
      obtain ⟨hnext, -, hscan⟩ := scan_double hflag
      -- the second operator is a byte of the text, so that the index stays within it
      have hlt : i + 1 < inputStr.length := by
        rw [List.head?_drop] at hnext
        exact (List.getElem?_eq_some_iff.mp hnext).1
      have hrest : inputStr.drop (i + 1) = c :: inputStr.drop (i + 2) := by
        rw [List.drop_eq_getElem_cons hlt] at hnext ⊢
        rw [Option.some.inj hnext]
      refine ⟨_, i + 2, rfl, hfits', by omega, by omega, hlt, ?_⟩
      rw [hscan, hrest, scanAll_double hroom (by rw [← hnext]; exact hflag)]
  · have hpos : maxCmdLen - 1 ≤ (s.raw i).buffPosition := Nat.not_lt.mp hroom
    exact Or.inl ⟨hroom, scanAll_full hroom _ _, if_pos hpos⟩

/-- Behind the loop what is in the buffer becomes the last argument. -/
theorem raw_finish (hfits : s.Fits) (i : Nat) :
    (s.raw i).finish = some ⟨s.flush.argv.length, s.flush.argv⟩ := by
  rw [RawScanner.finish, raw_endToken hfits.length_lt hfits.nul_notMem]
  rfl

/-- A scanner without room is full while input is left. -/
theorem raw_full_iff (hfits : s.Fits) (hi : i < inputStr.length) :
    (s.raw i).Full inputStr ↔ ¬ s.HasRoom := by
  have hlt : s.argBuffer.length < 1024 := hfits.length_lt
  change s.argBuffer.length = 1023 ∧ i < inputStr.length ↔ ¬ s.argBuffer.length < 1023
  omega

end Scanner

namespace RawScanner

variable {inputStr : CStr} {v v' : RawScanner}

/-- The variables hold a scanner. -/
def Shown (inputStr : CStr) (v : RawScanner) : Prop :=
  ∃ s : Scanner, v = s.raw v.i ∧ s.Fits ∧ s.size ≤ v.i ∧ v.i ≤ inputStr.length

theorem Shown.continues (hnul : 0 ∉ inputStr) (hv : v.Shown inputStr)
    (hpass : Continues inputStr v v') : v'.Shown inputStr := by
  obtain ⟨s, hs, hfits, hsize, -⟩ := hv
  obtain ⟨hi, hpass⟩ := hpass
  rw [hs] at hpass
  rcases Scanner.raw_pass_cases hnul hfits hi with
    ⟨-, -, hfull⟩ | ⟨-, s', j, hnext, hfits', hsize', -, hj, -⟩
  · rw [hfull] at hpass
    cases hpass
  · rw [hnext] at hpass
    obtain rfl : s'.raw j = v' := Option.some.inj (Option.some.inj hpass)
    exact ⟨s', rfl, hfits', by change s'.size ≤ j; omega, hj⟩

theorem shown_of_visits (hnul : 0 ∉ inputStr) (hv : Visits inputStr {} v) : v.Shown inputStr := by
  induction hv with
  | refl => exact ⟨{}, rfl, Scanner.fits_of_argBuffer_eq_nil rfl rfl, Nat.le_refl _, Nat.zero_le _⟩
  | tail _ hpass ih => exact ih.continues hnul hpass

theorem Shown.within (hnul : 0 ∉ inputStr) (hv : v.Shown inputStr) : v.Within inputStr := by
  obtain ⟨s, hs, hfits, hsize, hi⟩ := hv
  have hlt : s.argBuffer.length < 1024 := hfits.length_lt
  have hle := hfits.depth_le
  generalize v.i = i at hs hsize hi
  subst hs
  refine ⟨Nat.le_of_lt_succ hlt, ⟨Int.natCast_nonneg _, Int.ofNat_le.mpr hle⟩, hi, hsize, ?_, ?_⟩
  · intro hlt
    rcases Scanner.raw_pass_cases hnul hfits hlt with ⟨-, -, hpass⟩ | ⟨-, s', j, hpass, -⟩
    · exact hpass ▸ Option.some_ne_none _
    · exact hpass ▸ Option.some_ne_none _
  · intro _
    exact Scanner.raw_finish hfits i ▸ Option.some_ne_none _

/-! ## The whole call -/

theorem loop_end (hi : ¬ v.i < inputStr.length) (fuel : Nat) :
    loop inputStr fuel v = v.finish := by
  cases fuel with
  | zero => rw [loop, if_neg hi]
  | succ fuel => rw [loop, if_neg hi]

theorem loop_full (hi : v.i < inputStr.length) (hpass : v.pass inputStr = some none)
    (fuel : Nat) : loop inputStr (fuel + 1) v = some ⟨-1, v.argv⟩ := by
  rw [loop, if_pos hi, hpass]

theorem loop_continues (h : Continues inputStr v v') (fuel : Nat) :
    loop inputStr (fuel + 1) v = loop inputStr fuel v' := by
  rw [loop, if_pos h.1, h.2]

/-- Behind the last byte no token is too long any more. -/
theorem not_visits_full (hi : ¬ v.i < inputStr.length) :
    ¬ ∃ v', Visits inputStr v v' ∧ v'.Full inputStr := by
  rintro ⟨v', hvisits, hfull⟩
  rcases Relation.ReflTransGen.cases_head hvisits with rfl | ⟨_, hpass, -⟩
  · exact hi hfull.2
  · exact hi hpass.1

/-- A pass that is made leaves what is still to come. -/
theorem visits_full_iff (h : Continues inputStr v v') (hroom : ¬ v.Full inputStr) :
    (∃ w, Visits inputStr v w ∧ w.Full inputStr) ↔
      ∃ w, Visits inputStr v' w ∧ w.Full inputStr := by
  constructor
  · rintro ⟨w, hvisits, hfull⟩
    rcases Relation.ReflTransGen.cases_head hvisits with rfl | ⟨v₁, hpass, hrest⟩
    · exact absurd hfull hroom
    · obtain rfl : v' = v₁ := Option.some.inj (Option.some.inj (h.2.symm.trans hpass.2))
      exact ⟨w, hrest, hfull⟩
  · rintro ⟨w, hvisits, hfull⟩
    exact ⟨w, hvisits.head h, hfull⟩

/-- Behind the last byte the call returns the arguments. -/
theorem exists_loop_end {s : Scanner} (hfits : s.Fits) {i : Nat} (hi : ¬ i < inputStr.length)
    (fuel : Nat) :
    ∃ t, loop inputStr fuel (s.raw i) = some t ∧
      t.accepted = (s.scanAll (inputStr.drop i)).map (fun s' => s'.flush.argv) ∧
      (t.argc = -1 ↔ ∃ v, Visits inputStr (s.raw i) v ∧ v.Full inputStr) := by
  have hcount : (s.flush.argv.length : Int) ≠ -1 := by omega
  refine ⟨_, (loop_end hi fuel).trans (Scanner.raw_finish hfits i), ?_,
    iff_of_false hcount (not_visits_full hi)⟩
  rw [Tokenized.accepted, if_neg hcount, List.drop_of_length_le (Nat.not_lt.mp hi)]
  rfl

/-- What the call returns from given variables on, and when this is -1. The passes that are left
are at most as many as the bytes. -/
theorem exists_loop (hnul : 0 ∉ inputStr) {fuel : Nat} {s : Scanner} (hfits : s.Fits) {i : Nat}
    (hfuel : inputStr.length - i ≤ fuel) :
    ∃ t, loop inputStr fuel (s.raw i) = some t ∧
      t.accepted = (s.scanAll (inputStr.drop i)).map (fun s' => s'.flush.argv) ∧
      (t.argc = -1 ↔ ∃ v, Visits inputStr (s.raw i) v ∧ v.Full inputStr) := by
  induction fuel generalizing s i with
  | zero =>
    have hi : ¬ i < inputStr.length := by omega
    exact exists_loop_end hfits hi 0
  | succ fuel ih =>
    by_cases hi : i < inputStr.length
    · rcases Scanner.raw_pass_cases hnul hfits hi with
        ⟨hroom, hscan, hpass⟩ | ⟨hroom, s', j, hpass, hfits', -, hlt, -, hscan⟩
      · have hfull : (s.raw i).Full inputStr := (Scanner.raw_full_iff hfits hi).mpr hroom
        refine ⟨_, loop_full hi hpass fuel, ?_, iff_of_true rfl ⟨_, .refl, hfull⟩⟩
        rw [hscan]
        rfl
      · have hcontinues : Continues inputStr (s.raw i) (s'.raw j) := ⟨hi, hpass⟩
        have hnot : ¬ (s.raw i).Full inputStr := fun h =>
          (Scanner.raw_full_iff hfits hi).mp h hroom
        rw [loop_continues hcontinues, hscan, visits_full_iff hcontinues hnot]
        exact ih hfits' (by omega)
    · exact exists_loop_end hfits hi (fuel + 1)

end RawScanner

/-- On every text, whenever `tokenize_command` evaluates the condition of its loop, the variables
are in their ranges and what it does next keeps to the memory. It returns the scanner's
arguments, and -1 exactly when a token has filled the buffer while input was left. -/
theorem tokenizer_within {inputStr : CStr} (hnul : 0 ∉ inputStr) :
    (∀ v, RawScanner.Visits inputStr {} v → v.Within inputStr) ∧
    ∃ t, RawScanner.tokenizeCommand inputStr = some t ∧
      t.accepted = tokenizeCommand inputStr ∧
      (t.argc = -1 ↔ ∃ v, RawScanner.Visits inputStr {} v ∧ v.buffPosition = 1023 ∧
        v.i < inputStr.length) := by
  refine ⟨fun v hv => (RawScanner.shown_of_visits hnul hv).within hnul, ?_⟩
  have hfits : ({} : Scanner).Fits := Scanner.fits_of_argBuffer_eq_nil rfl rfl
  exact RawScanner.exists_loop hnul hfits (Nat.sub_le _ 0)

/-- One byte more than a token can have. -/
def longToken : CStr := List.replicate 1024 (byte 'a')

theorem tokenizer_within_longToken :
    (∃ t, RawScanner.tokenizeCommand longToken = some t ∧ t.argc = -1) ∧
      ∃ v, RawScanner.Visits longToken {} v ∧ v.Within longToken ∧ v.buffPosition = 1023 ∧
        v.i < longToken.length := by
  have hnul : 0 ∉ longToken := by
    rw [longToken, List.mem_replicate]
    exact fun h => absurd h.2 (by decide)
  have hscan : tokenizeCommand longToken = none := by decide +kernel
  obtain ⟨hwithin, t, ht, haccepted, hargc⟩ := tokenizer_within hnul
  have hminus : t.argc = -1 := by
    rw [hscan, Tokenized.accepted] at haccepted
    by_contra hne
    rw [if_neg hne] at haccepted
    cases haccepted
  obtain ⟨v, hv, hfull⟩ := hargc.mp hminus
  exact ⟨⟨t, ht, hminus⟩, v, hv, hwithin v hv, hfull⟩

example : RawScanner.tokenizeCommand (ascii "ls $(a b)>>x") =
    some ⟨4, [ascii "ls", ascii "$(a b)", ascii ">>", ascii "x"]⟩ := by decide +kernel

end AdMQ
