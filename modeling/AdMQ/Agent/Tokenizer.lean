import AdMQ.Core.CString

/-!
# The command tokenizer

`tokenize_command` splits the text of an action into the arguments of `execvp`. It
reads the text byte by byte with one byte of lookahead for doubled operators and a
look back into the argument under construction for `$(`.

The scanner composes over its input wherever no doubled operator is cut in two, and
what it has collected so far never influences what it collects next.
-/

namespace AdMQ

open Core

/-- `MAX_CMD_LEN`, the size of `arg_buffer`. -/
def maxCmdLen : Nat := 1024

/-- The byte `'`. -/
def singleMark : UInt8 := 39

/-- The byte `"`. -/
def doubleMark : UInt8 := 34

/-- The byte `\`. -/
def backslash : UInt8 := 92

/-- The bytes that are tokens of their own. -/
def isOperator (c : UInt8) : Bool :=
  c == byte '|' || c == byte '<' || c == byte '>' || c == byte '(' || c == byte ')' ||
    c == byte '&'

/-- The operators that also occur doubled. -/
def isDoubled (c : UInt8) : Bool := c == byte '&' || c == byte '|' || c == byte '>'

/-- The bytes that separate arguments. -/
def isBlank (c : UInt8) : Bool := c == byte ' ' || c == newline

/-- The variables of `tokenize_command`: the arguments added so far, the first
`buff_position` bytes of `arg_buffer`, the depth of `$(` and the three flags. -/
structure Scanner where
  argv : List CStr := []
  argBuffer : CStr := []
  subshellDepth : Nat := 0
  singleQuote : Bool := false
  doubleQuote : Bool := false
  charEscaped : Bool := false
  deriving DecidableEq

namespace Scanner

/-- `arg_buffer[buff_position++] = current_char`. -/
def push (s : Scanner) (c : UInt8) : Scanner := { s with argBuffer := s.argBuffer ++ [c] }

/-- `add_arg`. -/
def addArg (s : Scanner) (token : CStr) : Scanner := { s with argv := s.argv ++ [token] }

/-- What is in the buffer becomes an argument, unless it is empty. -/
def flush (s : Scanner) : Scanner :=
  if s.argBuffer = [] then s else { s.addArg s.argBuffer with argBuffer := [] }

/-- The branch of an operator outside quotes. The flag says that the next byte is
consumed as well. -/
def scanOperator (s : Scanner) (c : UInt8) (next : Option UInt8) : Scanner × Bool :=
  if c = byte '(' ∧ s.argBuffer.getLast? = some (byte '$') then
    ({ s.push c with subshellDepth := s.subshellDepth + 1 }, false)
  else if c = byte ')' ∧ 0 < s.subshellDepth then
    ({ s.push c with subshellDepth := s.subshellDepth - 1 }, false)
  else if 0 < s.subshellDepth then (s.push c, false)
  else if isDoubled c ∧ next = some c then (s.flush.addArg [c, c], true)
  else (s.flush.addArg [c], false)

/-- One iteration of the loop, behind the check of the buffer. -/
def scan (s : Scanner) (c : UInt8) (next : Option UInt8) : Scanner × Bool :=
  if s.charEscaped then ({ s.push c with charEscaped := false }, false)
  else if !s.singleQuote ∧ !s.doubleQuote ∧ isOperator c then s.scanOperator c next
  else if isBlank c then
    if s.singleQuote ∨ s.doubleQuote ∨ 0 < s.subshellDepth then (s.push c, false)
    else (s.flush, false)
  else if c = singleMark ∧ !s.doubleQuote then ({ s with singleQuote := !s.singleQuote }, false)
  else if c = doubleMark ∧ !s.singleQuote then ({ s with doubleQuote := !s.doubleQuote }, false)
  else if c = backslash ∧ !s.doubleQuote ∧ !s.singleQuote then
    ({ s with charEscaped := true }, false)
  else (s.push c, false)

/-- The loop; `none` is the exit with -1. -/
def scanAll (s : Scanner) : CStr → Option Scanner
  | [] => some s
  | c :: rest =>
    if maxCmdLen - 1 ≤ s.argBuffer.length then none
    else
      match s.scan c rest.head? with
      | (s', false) => s'.scanAll rest
      | (s', true) =>
        match rest with
        | [] => some s'
        | _ :: rest => s'.scanAll rest

end Scanner

/-- `tokenize_command`: the arguments, unless one exceeds the buffer. -/
def tokenizeCommand (inputStr : CStr) : Option (List CStr) :=
  (Scanner.scanAll {} inputStr).map fun s => s.flush.argv

namespace Scanner

variable {s s' : Scanner} {c : UInt8} {next : Option UInt8}

/-! ## One iteration -/

@[simp] theorem argBuffer_flush (s : Scanner) : s.flush.argBuffer = [] := by
  unfold flush
  split_ifs with h
  · exact h
  · rfl

theorem length_argBuffer_push (s : Scanner) (c : UInt8) :
    (s.push c).argBuffer.length ≤ s.argBuffer.length + 1 :=
  Nat.le_of_eq List.length_append

/-- Everything an iteration can do. Outside quotes and outside `$(` an operator ends the argument
and looks at the byte behind it; in every other place that byte is of no influence, and the buffer
grows by at most the byte read. -/
theorem scan_cases (s : Scanner) (c : UInt8) :
    (∃ s', s'.argBuffer.length ≤ s.argBuffer.length + 1 ∧ ∀ next, s.scan c next = (s', false)) ∨
      (s.charEscaped = false ∧ s.singleQuote = false ∧ s.doubleQuote = false ∧
        s.subshellDepth = 0) ∧
        ∀ next, s.scan c next = if isDoubled c ∧ next = some c then (s.flush.addArg [c, c], true)
          else (s.flush.addArg [c], false) := by
  have hpush := s.length_argBuffer_push c
  by_cases hescaped : s.charEscaped = true
  · refine Or.inl ⟨_, ?_, fun next => if_pos hescaped⟩
    exact hpush
  by_cases hop : (!s.singleQuote) = true ∧ (!s.doubleQuote) = true ∧ isOperator c = true
  · have hscan (next : Option UInt8) : s.scan c next = s.scanOperator c next :=
      (if_neg hescaped).trans (if_pos hop)
    simp only [hscan, scanOperator]
    by_cases hopen : c = byte '(' ∧ s.argBuffer.getLast? = some (byte '$')
    · refine Or.inl ⟨_, ?_, fun next => if_pos hopen⟩
      exact hpush
    by_cases hclose : c = byte ')' ∧ 0 < s.subshellDepth
    · refine Or.inl ⟨_, ?_, fun next => (if_neg hopen).trans (if_pos hclose)⟩
      exact hpush
    by_cases hdepth : 0 < s.subshellDepth
    · exact Or.inl ⟨_, hpush, fun next =>
        (if_neg hopen).trans ((if_neg hclose).trans (if_pos hdepth))⟩
    · refine Or.inr ⟨⟨?_, ?_, ?_, by omega⟩, fun next =>
        (if_neg hopen).trans ((if_neg hclose).trans (if_neg hdepth))⟩
      · exact Bool.eq_false_iff.mpr hescaped
      · simpa using hop.1
      · simpa using hop.2.1
  · refine Or.inl ⟨(s.scan c none).1, ?_, fun next => ?_⟩
    · rw [scan, if_neg hescaped, if_neg hop]
      split_ifs
      · exact hpush
      · exact s.argBuffer_flush ▸ Nat.zero_le _
      · exact Nat.le_succ _
      · exact Nat.le_succ _
      · exact Nat.le_succ _
      · exact hpush
    · rw [scan, scan, if_neg hescaped, if_neg hescaped, if_neg hop, if_neg hop]
      split_ifs <;> rfl

/-- Only a doubled operator consumes the byte behind it. -/
theorem scan_double (h : (s.scan c next).2 = true) :
    next = some c ∧ isDoubled c = true ∧ (s.scan c next).1 = s.flush.addArg [c, c] := by
  rcases s.scan_cases c with ⟨s', -, hscan⟩ | ⟨-, hscan⟩
  · rw [hscan] at h
    cases h
  · rw [hscan] at h ⊢
    split at h
    next hboth =>
      rw [if_pos hboth]
      exact ⟨hboth.2, hboth.1, rfl⟩
    next => cases h

/-- It is read outside quotes and outside `$(`. -/
theorem neutral_of_scan_double (h : (s.scan c next).2 = true) :
    s.charEscaped = false ∧ s.singleQuote = false ∧ s.doubleQuote = false ∧
      s.subshellDepth = 0 := by
  rcases s.scan_cases c with ⟨s', -, hscan⟩ | ⟨hneutral, -⟩
  · rw [hscan] at h
    cases h
  · exact hneutral

/-- What follows is of no influence on any other byte. -/
theorem scan_single (h : (s.scan c next).2 = false) : s.scan c next = s.scan c none := by
  rcases s.scan_cases c with ⟨s', -, hscan⟩ | ⟨-, hscan⟩
  · rw [hscan, hscan]
  · have hnone : s.scan c none = (s.flush.addArg [c], false) :=
      (hscan none).trans (if_neg (by simp))
    rw [hscan] at h
    rw [hnone, hscan]
    split at h
    next => cases h
    next hsingle => exact if_neg hsingle

/-- The buffer grows by at most the byte read. -/
theorem length_argBuffer_scan (s : Scanner) (c : UInt8) (next : Option UInt8) :
    (s.scan c next).1.argBuffer.length ≤ s.argBuffer.length + 1 := by
  rcases s.scan_cases c with ⟨s', hlen, hscan⟩ | ⟨-, hscan⟩
  · rw [hscan]
    exact hlen
  · rw [hscan]
    split <;> simp [addArg]

/-! ## The loop -/

/-- There is room for another byte in the buffer. -/
def HasRoom (s : Scanner) : Prop := s.argBuffer.length < maxCmdLen - 1

theorem scanAll_full (h : ¬ s.HasRoom) (c : UInt8) (rest : CStr) :
    s.scanAll (c :: rest) = none := by
  rw [scanAll, if_pos (Nat.not_lt.mp h)]

theorem scanAll_single (hroom : s.HasRoom) {rest : CStr} (h : (s.scan c rest.head?).2 = false) :
    s.scanAll (c :: rest) = (s.scan c none).1.scanAll rest := by
  have hscan : s.scan c rest.head? = ((s.scan c none).1, false) :=
    (scan_single h).trans (Prod.ext rfl (scan_single h ▸ h))
  rw [scanAll, if_neg (Nat.not_le.mpr hroom), hscan]

theorem scanAll_double (hroom : s.HasRoom) {rest : CStr}
    (h : (s.scan c (some c)).2 = true) :
    s.scanAll (c :: c :: rest) = (s.flush.addArg [c, c]).scanAll rest := by
  have hscan : s.scan c (some c) = (s.flush.addArg [c, c], true) :=
    Prod.ext (scan_double h).2.2 h
  rw [scanAll, if_neg (Nat.not_le.mpr hroom), List.head?_cons, hscan]

/-- The ways in which the loop goes on, with what it consumes. -/
theorem scanAll_induction {P : Scanner → CStr → Prop} (nil : ∀ s, P s [])
    (full : ∀ s c rest, ¬ s.HasRoom → P s (c :: rest))
    (single : ∀ s c rest, s.HasRoom → (s.scan c rest.head?).2 = false →
      P (s.scan c none).1 rest → P s (c :: rest))
    (double : ∀ s c rest, s.HasRoom → (s.scan c (some c)).2 = true →
      P (s.flush.addArg [c, c]) rest → P s (c :: c :: rest))
    (s : Scanner) (xs : CStr) : P s xs := by
  induction hn : xs.length using Nat.strong_induction_on generalizing s xs with
  | _ n ih =>
    cases xs with
    | nil => exact nil s
    | cons c rest =>
      by_cases hroom : s.HasRoom
      · cases hflag : (s.scan c rest.head?).2 with
        | false => exact single s c rest hroom hflag (ih _ (by simp [← hn]) _ _ rfl)
        | true =>
          obtain ⟨hnext, -, -⟩ := scan_double hflag
          obtain ⟨d, rest, rfl⟩ := List.exists_cons_of_ne_nil
            (show rest ≠ [] by rintro rfl; simp at hnext)
          obtain rfl : d = c := by simpa using hnext
          have hshorter : rest.length < n := by
            rw [← hn, List.length_cons, List.length_cons]
            omega
          exact double s _ rest hroom hflag (ih _ hshorter _ _ rfl)
      · exact full s c rest hroom

/-- A text is scanned up to a cut and on from there, unless a doubled operator is cut. -/
theorem scanAll_append {ys : CStr} (hcut : ∀ c ∈ ys.head?, isDoubled c = false) (s : Scanner)
    (xs : CStr) : s.scanAll (xs ++ ys) = (s.scanAll xs).bind fun s' => s'.scanAll ys := by
  induction s, xs using scanAll_induction with
  | nil s => rfl
  | full s c rest hroom => rw [List.cons_append, scanAll_full hroom, scanAll_full hroom]; rfl
  | single s c rest hroom hflag ih =>
    have hflag' : (s.scan c (rest ++ ys).head?).2 = false := by
      cases rest with
      | cons d rest => exact hflag
      | nil =>
        rw [Bool.eq_false_iff]
        intro htrue
        obtain ⟨hnext, hdouble, -⟩ := scan_double htrue
        rw [List.nil_append] at hnext
        rw [hcut c hnext] at hdouble
        cases hdouble
    rw [List.cons_append, scanAll_single hroom hflag', scanAll_single hroom hflag, ih]
  | double s c rest hroom hflag ih =>
    rw [List.cons_append, List.cons_append, scanAll_double hroom hflag, scanAll_double hroom hflag,
      ih]

/-- The loop ends before a buffer that has room for the whole text overflows. -/
theorem exists_scanAll_eq_some (s : Scanner) (xs : CStr)
    (h : s.argBuffer.length + xs.length < maxCmdLen) : ∃ s', s.scanAll xs = some s' := by
  induction s, xs using scanAll_induction with
  | nil s => exact ⟨s, rfl⟩
  | full s c rest hroom =>
    simp only [HasRoom, List.length_cons] at hroom h
    omega
  | single s c rest hroom hflag ih =>
    rw [scanAll_single hroom hflag]
    have hlen := s.length_argBuffer_scan c none
    rw [List.length_cons] at h
    exact ih (by omega)
  | double s c rest hroom hflag ih =>
    rw [scanAll_double hroom hflag]
    simp only [List.length_cons] at h
    exact ih (by simp only [addArg, argBuffer_flush, List.length_nil]; omega)

/-- The buffer holds no more than what was read. -/
theorem length_argBuffer_scanAll {xs : CStr} (h : s.scanAll xs = some s') :
    s'.argBuffer.length ≤ s.argBuffer.length + xs.length := by
  induction s, xs using scanAll_induction with
  | nil s =>
    obtain rfl : s = s' := Option.some.inj h
    exact Nat.le_add_right ..
  | full s c rest hroom =>
    rw [scanAll_full hroom] at h
    cases h
  | single s c rest hroom hflag ih =>
    rw [scanAll_single hroom hflag] at h
    have hlen := s.length_argBuffer_scan c none
    have hle := ih h
    rw [List.length_cons]
    omega
  | double s c rest hroom hflag ih =>
    rw [scanAll_double hroom hflag] at h
    have hle := ih h
    simp only [addArg, argBuffer_flush, List.length_nil] at hle
    simp only [List.length_cons]
    omega

/-! ## What was collected before -/

/-- The same scanner with arguments in front of the ones it has. -/
def after (s : Scanner) (argv : List CStr) : Scanner := { s with argv := argv ++ s.argv }

theorem after_flush (s : Scanner) (argv : List CStr) :
    (s.after argv).flush = s.flush.after argv := by
  by_cases h : s.argBuffer = []
  · simp [flush, after, h]
  · simp [flush, after, h, addArg]

theorem after_addArg (s : Scanner) (argv : List CStr) (token : CStr) :
    (s.after argv).addArg token = (s.addArg token).after argv := by
  simp [after, addArg]

theorem scanOperator_after (s : Scanner) (argv : List CStr) (c : UInt8) (next : Option UInt8) :
    (s.after argv).scanOperator c next = Prod.map (fun s' => s'.after argv) id
      (s.scanOperator c next) := by
  simp only [scanOperator, apply_ite (Prod.map _ _), Prod.map_apply, after_flush, after_addArg]
  rfl

/-- Arguments that were added before have no influence on an iteration. -/
theorem scan_after (s : Scanner) (argv : List CStr) (c : UInt8) (next : Option UInt8) :
    (s.after argv).scan c next = Prod.map (fun s' => s'.after argv) id (s.scan c next) := by
  simp only [scan, apply_ite (Prod.map _ _), Prod.map_apply, after_flush, scanOperator_after]
  rfl

theorem scanAll_after (s : Scanner) (argv : List CStr) (xs : CStr) :
    (s.after argv).scanAll xs = (s.scanAll xs).map fun s' => s'.after argv := by
  induction s, xs using scanAll_induction with
  | nil s => rfl
  | full s c rest hroom => rw [scanAll_full hroom, scanAll_full (s := s.after argv) hroom]; rfl
  | single s c rest hroom hflag ih =>
    rw [scanAll_single (s := s.after argv) hroom (by rw [scan_after]; exact hflag),
      scanAll_single hroom hflag, ← ih, scan_after]
    rfl
  | double s c rest hroom hflag ih =>
    rw [scanAll_double (s := s.after argv) hroom (by rw [scan_after]; exact hflag),
      scanAll_double hroom hflag, after_flush, after_addArg, ih]

end Scanner

/-! ## Composition -/

/-- No quote is open, no escape pending and no `$(` unclosed. -/
def Scanner.Neutral (s : Scanner) : Prop :=
  s.singleQuote = false ∧ s.doubleQuote = false ∧ s.charEscaped = false ∧ s.subshellDepth = 0

instance (s : Scanner) : Decidable s.Neutral := inferInstanceAs (Decidable (_ ∧ _ ∧ _ ∧ _))

/-- The scan of a text ends in a neutral state. -/
def EndsNeutral (text : CStr) : Prop := ∃ s, Scanner.scanAll {} text = some s ∧ s.Neutral

/-- A blank in a neutral state leaves nothing behind but the arguments. -/
theorem Scanner.Neutral.scan_blank {s : Scanner} (h : s.Neutral) (next : Option UInt8) :
    s.scan (byte ' ') next = (({} : Scanner).after s.flush.argv, false) := by
  obtain ⟨hsingle, hdouble, hescaped, hdepth⟩ := h
  have hop : isOperator (byte ' ') = false := by decide
  have hblank : isBlank (byte ' ') = true := by decide
  simp only [scan, hescaped, hop, hblank, hsingle, hdouble, hdepth]
  by_cases hbuf : s.argBuffer = []
  · cases s
    simp_all [flush, after]
  · cases s
    simp_all [flush, after, addArg]

theorem Scanner.Neutral.scanAll_blank {s : Scanner} (h : s.Neutral) (hroom : s.HasRoom)
    (rest : CStr) : s.scanAll (byte ' ' :: rest) =
      (Scanner.scanAll {} rest).map fun s' => s'.after s.flush.argv := by
  rw [scanAll_single hroom (by rw [h.scan_blank]), h.scan_blank, scanAll_after]

/-- The arguments of two texts joined by a blank, the first of which ends neutrally. -/
theorem tokenizeCommand_append (text more : CStr)
    (hlen : text.length + more.length + 1 < maxCmdLen) (h : EndsNeutral text) :
    ∃ argv argv', tokenizeCommand text = some argv ∧ tokenizeCommand more = some argv' ∧
      tokenizeCommand (text ++ byte ' ' :: more) = some (argv ++ argv') := by
  obtain ⟨s, hs, hneutral⟩ := h
  obtain ⟨s', hs'⟩ := Scanner.exists_scanAll_eq_some {} more (by
    simp only [List.length_nil]
    omega)
  have hroom : s.HasRoom := by
    have hle := Scanner.length_argBuffer_scanAll hs
    simp only [List.length_nil] at hle
    unfold Scanner.HasRoom
    omega
  refine ⟨s.flush.argv, s'.flush.argv, ?_, ?_, ?_⟩
  · rw [tokenizeCommand, hs]
    rfl
  · rw [tokenizeCommand, hs']
    rfl
  · -- behind the blank the scanner differs from a fresh one by the arguments it has
    have hcut : ∀ c ∈ (byte ' ' :: more).head?, isDoubled c = false := by
      intro c hc
      obtain rfl : byte ' ' = c := by simpa using hc
      decide
    rw [tokenizeCommand, Scanner.scanAll_append hcut, hs, Option.bind_some,
      hneutral.scanAll_blank hroom, hs', Option.map_some, Option.map_some, Scanner.after_flush]
    rfl

end AdMQ
