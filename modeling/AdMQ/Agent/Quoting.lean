import AdMQ.Agent.Lexical

/-!
# Writing arguments

An argument of any content is written between single quotes, between double quotes or
with a backslash in front of each byte. The tokenizer reads a list of arguments back
from their writings, separated by blanks: at the end of each writing it stands in a
neutral state with the argument in its buffer.
-/

namespace AdMQ

open Core

/-- The ways to write an argument. -/
inductive Quoting where
  | single
  | double
  | backslashes
  deriving DecidableEq

namespace Quoting

def write : Quoting → CStr → CStr
  | .single, text => singleMark :: (text ++ [singleMark])
  | .double, text => doubleMark :: (text ++ [doubleMark])
  | .backslashes, text => text.flatMap fun c => [backslash, c]

/-- A quoted argument must not contain the mark of its quotes. -/
def Admits : Quoting → CStr → Prop
  | .single, text => singleMark ∉ text
  | .double, text => doubleMark ∉ text
  | .backslashes, _ => True

end Quoting

/-- An argument with a way to write it. -/
structure Argument where
  text : CStr
  quoting : Quoting
  ne_nil : text ≠ []
  nul_notMem : 0 ∉ text
  length_le : text.length ≤ maxCmdLen - 2
  admits : quoting.Admits text

/-- The writings of some arguments, separated by blanks. -/
def commandLine (args : List Argument) : CStr :=
  [byte ' '].intercalate (args.map fun a => a.quoting.write a.text)

namespace Scanner

variable {s : Scanner}

/-- The scanner with other contents of the buffer. -/
def holding (s : Scanner) (buffer : CStr) : Scanner := { s with argBuffer := buffer }

theorem hasRoom_holding {buffer : CStr} (h : buffer.length + 1 < maxCmdLen) :
    (s.holding buffer).HasRoom :=
  Nat.lt_sub_of_add_lt h

/-- A stretch is collected when each of its bytes is, whatever the buffer holds. -/
theorem scanAll_collect {xs : CStr}
    (hpush : ∀ c ∈ xs, ∀ buffer next, (s.holding buffer).scan c next =
      (s.holding (buffer ++ [c]), false))
    (buffer : CStr) (hlen : buffer.length + xs.length < maxCmdLen) (rest : CStr) :
    (s.holding buffer).scanAll (xs ++ rest) = (s.holding (buffer ++ xs)).scanAll rest := by
  induction xs generalizing buffer with
  | nil => rw [List.nil_append, List.append_nil]
  | cons c xs ih =>
    rw [List.length_cons] at hlen
    have hroom : (s.holding buffer).HasRoom := hasRoom_holding (by omega)
    have hscan := hpush c (List.mem_cons_self ..) buffer
    rw [List.cons_append, scanAll_single hroom (by rw [hscan]), hscan,
      ih (fun d hd => hpush d (List.mem_cons_of_mem _ hd)) _ (by
        rw [List.length_append, List.length_singleton]
        omega), List.append_assoc, List.singleton_append]

/-- A text between two marks, where the first leads to a state `q` that collects every other
byte and the second leads back. -/
theorem scanAll_between {q : Scanner} {mark : UInt8} {text : CStr} (hmark : mark ∉ text)
    (hopen : ∀ next, (s.holding []).scan mark next = (q.holding [], false))
    (hquoted : ∀ c buffer next, (q.holding buffer).scan c next =
      (if c = mark then s.holding buffer else q.holding (buffer ++ [c]), false))
    (hlen : text.length + 1 < maxCmdLen) (rest : CStr) :
    (s.holding []).scanAll (mark :: (text ++ [mark]) ++ rest) = (s.holding text).scanAll rest := by
  have hkeep : ∀ c ∈ text, ∀ buffer next, (q.holding buffer).scan c next =
      (q.holding (buffer ++ [c]), false) := by
    intro c hc buffer next
    have hne : c ≠ mark := by
      rintro rfl
      exact hmark hc
    rw [hquoted, if_neg hne]
  have hclose (next : Option UInt8) :
      (q.holding text).scan mark next = (s.holding text, false) := by
    rw [hquoted, if_pos rfl]
  have hroom : (s.holding []).HasRoom := hasRoom_holding (by decide)
  have hroom' : (q.holding text).HasRoom := hasRoom_holding hlen
  have hlen' : ([] : CStr).length + text.length < maxCmdLen := by
    rw [List.length_nil]
    omega
  rw [List.cons_append, scanAll_single hroom (by rw [hopen]), hopen, List.append_assoc,
    scanAll_collect hkeep [] hlen', List.nil_append, List.singleton_append,
    scanAll_single hroom' (by rw [hclose]), hclose]

variable {text : CStr}

theorem scanAll_singleQuoted (h : s.Neutral) (hmark : singleMark ∉ text)
    (hlen : text.length + 1 < maxCmdLen) (rest : CStr) :
    (s.holding []).scanAll (Quoting.single.write text ++ rest) =
      (s.holding text).scanAll rest := by
  obtain ⟨hs, hd, he, -⟩ := h
  let q : Scanner := { s with singleQuote := true }
  refine scanAll_between (q := q) hmark (fun next => ?_) (fun c buffer next => ?_) hlen rest
  · rw [scan_unquoted (s := s.holding []) he hs hd (by decide)]
    rfl
  · rw [scan_singleQuoted (s := q.holding buffer) he rfl hd next, ← hs]
    rfl

theorem scanAll_doubleQuoted (h : s.Neutral) (hmark : doubleMark ∉ text)
    (hlen : text.length + 1 < maxCmdLen) (rest : CStr) :
    (s.holding []).scanAll (Quoting.double.write text ++ rest) =
      (s.holding text).scanAll rest := by
  obtain ⟨hs, hd, he, -⟩ := h
  let q : Scanner := { s with doubleQuote := true }
  refine scanAll_between (q := q) hmark (fun next => ?_) (fun c buffer next => ?_) hlen rest
  · rw [scan_unquoted (s := s.holding []) he hs hd (by decide)]
    rfl
  · rw [scan_doubleQuoted (s := q.holding buffer) he hs rfl next, ← hd]
    rfl

/-- Behind a backslash any byte is collected. -/
theorem scanAll_escaped (h : s.Neutral) (buffer : CStr)
    (hlen : buffer.length + text.length < maxCmdLen) (rest : CStr) :
    (s.holding buffer).scanAll (Quoting.backslashes.write text ++ rest) =
      (s.holding (buffer ++ text)).scanAll rest := by
  obtain ⟨hs, hd, he, -⟩ := h
  let q : Scanner := { s with charEscaped := true }
  have hback (buffer : CStr) (next : Option UInt8) :
      (s.holding buffer).scan backslash next = (q.holding buffer, false) := by
    rw [scan_unquoted (s := s.holding buffer) he hs hd (by decide)]
    rfl
  have hnext (buffer : CStr) (c : UInt8) (next : Option UInt8) :
      (q.holding buffer).scan c next = (s.holding (buffer ++ [c]), false) := by
    rw [scan_escaped (s := q.holding buffer) rfl, ← he]
    rfl
  induction text generalizing buffer with
  | nil =>
    rw [List.append_nil]
    rfl
  | cons c text ih =>
    rw [List.length_cons] at hlen
    have hroom : (s.holding buffer).HasRoom := hasRoom_holding (by omega)
    have hroom' : (q.holding buffer).HasRoom := hasRoom_holding (by omega)
    have hlen' : (buffer ++ [c]).length + text.length < maxCmdLen := by
      rw [List.length_append, List.length_singleton]
      omega
    calc (s.holding buffer).scanAll (Quoting.backslashes.write (c :: text) ++ rest)
        = (q.holding buffer).scanAll (c :: (Quoting.backslashes.write text ++ rest)) := by
          refine (scanAll_single hroom (by rw [hback])).trans ?_
          rw [hback]
          rfl
      _ = (s.holding (buffer ++ [c])).scanAll (Quoting.backslashes.write text ++ rest) := by
          rw [scanAll_single hroom' (by rw [hnext]), hnext]
      _ = (s.holding (buffer ++ c :: text)).scanAll rest := by
          rw [ih _ hlen', List.append_assoc, List.singleton_append]

end Scanner

/-! ## Reading the arguments back -/

variable {a : Argument}

/-- The writing of an argument fills the buffer with it and changes nothing else. -/
theorem Argument.scanAll_write (a : Argument) (rest : CStr) :
    Scanner.scanAll {} (a.quoting.write a.text ++ rest) =
      Scanner.scanAll { argBuffer := a.text } rest := by
  have hneutral : Scanner.Neutral {} := by decide
  have hlen : a.text.length + 1 < maxCmdLen := by
    have hle := a.length_le
    unfold maxCmdLen at hle ⊢
    omega
  have hadmits := a.admits
  cases hq : a.quoting with
  | single =>
    rw [hq] at hadmits
    exact Scanner.scanAll_singleQuoted hneutral hadmits hlen rest
  | double =>
    rw [hq] at hadmits
    exact Scanner.scanAll_doubleQuoted hneutral hadmits hlen rest
  | backslashes =>
    have hlen' : ([] : CStr).length + a.text.length < maxCmdLen := by
      rw [List.length_nil]
      omega
    exact Scanner.scanAll_escaped hneutral [] hlen' rest

/-- An argument at the end of a text. -/
theorem Argument.tokenizeCommand_write (a : Argument) :
    tokenizeCommand (a.quoting.write a.text) = some [a.text] := by
  have h := a.scanAll_write []
  rw [List.append_nil] at h
  rw [tokenizeCommand, h]
  simp [Scanner.scanAll, Scanner.flush, Scanner.addArg, a.ne_nil]

/-- An argument in front of a blank. -/
theorem Argument.tokenizeCommand_write_append (a : Argument) (rest : CStr) :
    tokenizeCommand (a.quoting.write a.text ++ byte ' ' :: rest) =
      (tokenizeCommand rest).map fun argv => a.text :: argv := by
  let s : Scanner := { argBuffer := a.text }
  have hneutral : s.Neutral := ⟨rfl, rfl, rfl, rfl⟩
  have hroom : s.HasRoom := Nat.lt_of_le_of_lt a.length_le (by decide)
  have hflush : s.flush.argv = [a.text] := by simp [s, Scanner.flush, Scanner.addArg, a.ne_nil]
  rw [tokenizeCommand, a.scanAll_write, hneutral.scanAll_blank hroom, hflush, tokenizeCommand,
    Option.map_map, Option.map_map]
  refine congrArg (fun f => Option.map f _) (funext fun s' => ?_)
  simp only [Function.comp_apply, Scanner.after_flush]
  rfl

/-- Written arguments are read back, as many as there are and with any contents. -/
theorem tokenizeCommand_commandLine (args : List Argument) :
    tokenizeCommand (commandLine args) = some (args.map fun a => a.text) := by
  induction args with
  | nil => rfl
  | cons a args ih =>
    cases args with
    | nil => exact (congrArg tokenizeCommand (List.append_nil _)).trans a.tokenizeCommand_write
    | cons b args =>
      have hline : commandLine (a :: b :: args) =
          a.quoting.write a.text ++ byte ' ' :: commandLine (b :: args) := by
        rw [commandLine, List.map_cons, List.map_cons, List.intercalate_cons_cons,
          List.append_assoc]
        rfl
      rw [hline, a.tokenizeCommand_write_append, ih]
      rfl

theorem tokenizeCommand_commandLine_three :
    tokenizeCommand (ascii "'a b' \"it's\" \\$\\(\\&") =
      some [ascii "a b", ascii "it's", ascii "$(&"] :=
  tokenizeCommand_commandLine
    [⟨ascii "a b", .single, by decide, by decide, by decide, by unfold Quoting.Admits; decide⟩,
      ⟨ascii "it's", .double, by decide, by decide, by decide, by unfold Quoting.Admits; decide⟩,
      ⟨ascii "$(&", .backslashes, by decide, by decide, by decide, trivial⟩]

end AdMQ
