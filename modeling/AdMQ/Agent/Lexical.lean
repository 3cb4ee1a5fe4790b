import AdMQ.Agent.Tokenizer

/-!
# What the tokenizer keeps of a text

A reader of a command text knows, in front of each byte, whether a quote is open,
whether the byte is escaped and how many `$(` are unclosed. From that alone follows
which bytes are deleted: the marks of quotes, the backslashes of escapes and the blanks
between words. The tokenizer deletes exactly those.

The tokenizer's own notion of `$(` is coarser than a shell's. It looks for the `$` at the
end of the word it has collected, so a quoted or escaped one counts, and the first `)`
closes the innermost `$(` even if a plain `(` is open inside it.
-/

namespace AdMQ

open Core

/-! ## Reading a text -/

/-- The quotes that a byte can stand in. -/
inductive Quote where
  | none
  | single
  | double
  deriving DecidableEq

/-- Where a reader stands in a text. A `(` outside quotes counts as `$(` when the last byte
kept of the word before it is a `$`, however that byte was written, and each `)` closes one. -/
structure Reading where
  quote : Quote := .none
  escaped : Bool := false
  depth : Nat := 0
  afterDollar : Bool := false

namespace Reading

/-- The bytes that do not belong to the arguments. -/
def deletes (r : Reading) (c : UInt8) : Bool :=
  !r.escaped &&
    match r.quote with
    | .single => c == singleMark
    | .double => c == doubleMark
    | .none => c == singleMark || c == doubleMark || c == backslash || (isBlank c && r.depth == 0)

/-- Behind a byte that is no mark of a quote and no backslash of an escape. -/
def pass (r : Reading) (c : UInt8) : Reading :=
  { r with escaped := false, afterDollar := c == byte '$' }

/-- Where the reader stands behind a byte. -/
def next (r : Reading) (c : UInt8) : Reading :=
  if r.escaped then r.pass c
  else
    match r.quote with
    | .single => if c = singleMark then { r with quote := .none } else r.pass c
    | .double => if c = doubleMark then { r with quote := .none } else r.pass c
    | .none =>
      if c = singleMark then { r with quote := .single }
      else if c = doubleMark then { r with quote := .double }
      else if c = backslash then { r with escaped := true }
      else if c = byte '(' ∧ r.afterDollar then { r.pass c with depth := r.depth + 1 }
      else if c = byte ')' then { r.pass c with depth := r.depth - 1 }
      else r.pass c

/-- The bytes of a text that a reader does not delete. -/
def kept (r : Reading) : CStr → CStr
  | [] => []
  | c :: rest => if r.deletes c then (r.next c).kept rest else c :: (r.next c).kept rest

end Reading

/-! ## The tokenizer as a reader -/

variable {s s' : Scanner} {r : Reading} {c : UInt8}

/-- The flags of the tokenizer tell where the reader stands. -/
structure Scanner.Reads (s : Scanner) (r : Reading) : Prop where
  singleQuote : s.singleQuote = (r.quote == .single)
  doubleQuote : s.doubleQuote = (r.quote == .double)
  charEscaped : s.charEscaped = r.escaped
  subshellDepth : s.subshellDepth = r.depth
  afterDollar : r.afterDollar = true ↔ s.argBuffer.getLast? = some (byte '$')

/-- The arguments and the buffer, written behind each other. -/
def Scanner.text (s : Scanner) : CStr := s.argv.flatten ++ s.argBuffer

@[simp] theorem Scanner.text_push (s : Scanner) (c : UInt8) : (s.push c).text = s.text ++ [c] := by
  simp [text, push]

@[simp] theorem Scanner.text_flush (s : Scanner) : s.flush.text = s.text := by
  by_cases h : s.argBuffer = []
  · simp [flush, h]
  · simp [flush, h, text, addArg]

theorem Scanner.text_flush_addArg (s : Scanner) (token : CStr) :
    (s.flush.addArg token).text = s.text ++ token := by
  rw [← s.text_flush]
  simp [text, addArg]

theorem not_mark_of_isOperator (h : isOperator c = true) :
    c ≠ singleMark ∧ c ≠ doubleMark ∧ c ≠ backslash ∧ isBlank c = false ∧
      (c == byte '$') = false := by
  simp only [isOperator, Bool.or_eq_true, beq_iff_eq] at h
  rcases h with ((((rfl | rfl) | rfl) | rfl) | rfl) | rfl <;> decide

theorem not_mark_of_isBlank (h : isBlank c = true) :
    c ≠ singleMark ∧ c ≠ doubleMark ∧ c ≠ backslash ∧ (c == byte '$') = false := by
  simp only [isBlank, Bool.or_eq_true, beq_iff_eq] at h
  rcases h with rfl | rfl <;> decide

/-! ### An iteration by the state it starts in -/

theorem Scanner.scan_escaped (h : s.charEscaped = true) (next : Option UInt8) :
    s.scan c next = ({ s.push c with charEscaped := false }, false) := by
  rw [scan, if_pos h]

/-- Between single quotes every byte but their mark is kept. -/
theorem Scanner.scan_singleQuoted (he : s.charEscaped = false) (hs : s.singleQuote = true)
    (hd : s.doubleQuote = false) (next : Option UInt8) :
    s.scan c next =
      (if c = singleMark then { s with singleQuote := false } else s.push c, false) := by
  by_cases hc : c = singleMark
  · have hblank : isBlank singleMark = false := by decide
    simp [scan, hc, he, hs, hd, hblank]
  · simp [scan, hc, he, hs, hd]

/-- Between double quotes every byte but their mark is kept. -/
theorem Scanner.scan_doubleQuoted (he : s.charEscaped = false) (hs : s.singleQuote = false)
    (hd : s.doubleQuote = true) (next : Option UInt8) :
    s.scan c next =
      (if c = doubleMark then { s with doubleQuote := false } else s.push c, false) := by
  by_cases hc : c = doubleMark
  · have hblank : isBlank doubleMark = false := by decide
    simp [scan, hc, he, hs, hd, hblank]
  · simp [scan, hc, he, hs, hd]

/-- Outside quotes an operator has a branch of its own. -/
theorem Scanner.scan_operator (he : s.charEscaped = false) (hs : s.singleQuote = false)
    (hd : s.doubleQuote = false) (hc : isOperator c = true) (next : Option UInt8) :
    s.scan c next = s.scanOperator c next := by
  simp [scan, he, hs, hd, hc]

/-- The other bytes outside quotes. -/
theorem Scanner.scan_unquoted (he : s.charEscaped = false) (hs : s.singleQuote = false)
    (hd : s.doubleQuote = false) (hc : isOperator c = false) (next : Option UInt8) :
    s.scan c next =
      (if isBlank c then if 0 < s.subshellDepth then s.push c else s.flush
        else if c = singleMark then { s with singleQuote := true }
        else if c = doubleMark then { s with doubleQuote := true }
        else if c = backslash then { s with charEscaped := true }
        else s.push c, false) := by
  simp only [scan, he, hs, hd, hc, Bool.false_eq_true, and_false, false_or, Bool.not_false,
    and_true, if_false]
  split_ifs <;> rfl

/-! ### The readers move together -/

theorem Scanner.Reads.push (h : s.Reads r) (c : UInt8) :
    ({ s.push c with charEscaped := false } : Scanner).Reads (r.pass c) where
  singleQuote := h.singleQuote
  doubleQuote := h.doubleQuote
  charEscaped := rfl
  subshellDepth := h.subshellDepth
  afterDollar := by simp [Scanner.push, Reading.pass]

theorem Scanner.Reads.push_of_not_escaped (h : s.Reads r) (he : s.charEscaped = false) (c : UInt8) :
    (s.push c).Reads (r.pass c) := by
  have hp := h.push c
  rwa [← he] at hp

/-- Behind the end of a word no `(` continues a `$`. -/
theorem Scanner.Reads.flush (h : s.Reads r) : s.flush.Reads { r with afterDollar := false } := by
  have hbuf := s.argBuffer_flush
  unfold Scanner.flush at hbuf ⊢
  split_ifs with hnil
  · exact ⟨h.singleQuote, h.doubleQuote, h.charEscaped, h.subshellDepth, by simp [hnil]⟩
  · exact ⟨h.singleQuote, h.doubleQuote, h.charEscaped, h.subshellDepth, by simp⟩

/-- What an iteration does to the reader and to the bytes kept. -/
def Scanner.Follows (s : Scanner) (r : Reading) (c : UInt8) (s' : Scanner) : Prop :=
  s'.Reads (r.next c) ∧ s'.text = if r.deletes c then s.text else s.text ++ [c]

theorem Scanner.Reads.follows_kept {r' : Reading} (h : s'.Reads r') (hnext : r.next c = r')
    (hkeep : r.deletes c = false) (htext : s'.text = s.text ++ [c]) : s.Follows r c s' := by
  refine ⟨hnext ▸ h, ?_⟩
  rw [hkeep]
  exact htext

theorem Scanner.Reads.follows_deleted {r' : Reading} (h : s'.Reads r') (hnext : r.next c = r')
    (hdel : r.deletes c = true) (htext : s'.text = s.text) : s.Follows r c s' := by
  refine ⟨hnext ▸ h, ?_⟩
  rw [hdel]
  exact htext

theorem Scanner.Reads.follows_push (h : s.Reads r) (he : s.charEscaped = false)
    (hnext : r.next c = r.pass c) (hkeep : r.deletes c = false) : s.Follows r c (s.push c) :=
  (h.push_of_not_escaped he c).follows_kept hnext hkeep (s.text_push c)

/-- The parentheses are the only operators of meaning to a reader. -/
theorem Reading.next_operator (he : r.escaped = false) (hq : r.quote = .none)
    (hc : isOperator c = true) :
    r.next c =
      if c = byte '(' ∧ r.afterDollar then { r.pass c with depth := r.depth + 1 }
      else if c = byte ')' then { r.pass c with depth := r.depth - 1 }
      else r.pass c := by
  obtain ⟨hsingle, hdouble, hback, -, -⟩ := not_mark_of_isOperator hc
  simp [next, he, hq, hsingle, hdouble, hback]

theorem Scanner.Reads.follows_operator (h : s.Reads r) (he : r.escaped = false)
    (hq : r.quote = .none) (hc : isOperator c = true) :
    s.Follows r c (s.scanOperator c none).1 := by
  obtain ⟨hsingle, hdouble, hback, hblank, hdollar⟩ := not_mark_of_isOperator hc
  have hescaped : s.charEscaped = false := h.charEscaped.trans he
  have hkeep : r.deletes c = false := by simp [Reading.deletes, hq, hsingle, hdouble, hback, hblank]
  have hdepth := h.subshellDepth
  have hpush := h.push_of_not_escaped hescaped c
  have hnext := Reading.next_operator he hq hc
  simp only [h.afterDollar] at hnext
  unfold Scanner.scanOperator
  split_ifs with hopen hclose hinside hpair
  · rw [if_pos hopen, ← hdepth] at hnext
    refine Scanner.Reads.follows_kept ?_ hnext hkeep (s.text_push _)
    exact ⟨hpush.singleQuote, hpush.doubleQuote, hpush.charEscaped, rfl, hpush.afterDollar⟩
  · rw [if_neg hopen, if_pos hclose.1, ← hdepth] at hnext
    refine Scanner.Reads.follows_kept ?_ hnext hkeep (s.text_push _)
    exact ⟨hpush.singleQuote, hpush.doubleQuote, hpush.charEscaped, rfl, hpush.afterDollar⟩
  · rw [if_neg hopen, if_neg fun hc => hclose ⟨hc, hinside⟩] at hnext
    exact h.follows_push hescaped hnext hkeep
  · cases hpair.2
  · -- the operator ends the word before it
    have hpass : r.next c = r.pass c := by
      rw [hnext, if_neg hopen]
      split_ifs
      · have hzero : r.depth - 1 = r.depth := by omega
        rw [hzero]
        rfl
      · rfl
    have hend : r.pass c = { r with afterDollar := false } := by
      rw [Reading.pass, hdollar, ← he]
    have hflush := h.flush
    refine Scanner.Reads.follows_kept ?_ (hpass.trans hend) hkeep (s.text_flush_addArg [c])
    exact ⟨hflush.singleQuote, hflush.doubleQuote, hflush.charEscaped, hflush.subshellDepth,
      hflush.afterDollar⟩

theorem Scanner.Reads.follows_unquoted (h : s.Reads r) (he : r.escaped = false)
    (hq : r.quote = .none) (hc : isOperator c = false) : s.Follows r c (s.scan c none).1 := by
  have hescaped : s.charEscaped = false := h.charEscaped.trans he
  have hs : s.singleQuote = false := by rw [h.singleQuote, hq]; rfl
  have hd : s.doubleQuote = false := by rw [h.doubleQuote, hq]; rfl
  have hopen : c ≠ byte '(' := by rintro rfl; cases hc
  have hclose : c ≠ byte ')' := by rintro rfl; cases hc
  have hdepth := h.subshellDepth
  rw [Scanner.scan_unquoted hescaped hs hd hc]
  split_ifs with hblank hinside hsingle hdouble hback
  · obtain ⟨hsingle, hdouble, hback, -⟩ := not_mark_of_isBlank hblank
    refine h.follows_push hescaped ?_ ?_
    · simp [Reading.next, he, hq, hsingle, hdouble, hback, hopen, hclose]
    · simp [Reading.deletes, hq, hsingle, hdouble, hback, ← hdepth, Nat.ne_of_gt hinside]
  · obtain ⟨hsingle, hdouble, hback, hdollar⟩ := not_mark_of_isBlank hblank
    have hnext : r.next c = { r with afterDollar := false } := by
      simp [Reading.next, he, hq, hsingle, hdouble, hback, hopen, hclose, Reading.pass, hdollar]
    have hdel : r.deletes c = true := by
      have hzero : r.depth = 0 := by omega
      simp [Reading.deletes, he, hq, hblank, hzero]
    exact h.flush.follows_deleted hnext hdel s.text_flush
  · have hnext : r.next c = { r with quote := .single } := by simp [Reading.next, he, hq, hsingle]
    have hdel : r.deletes c = true := by simp [Reading.deletes, he, hq, hsingle]
    refine Scanner.Reads.follows_deleted ?_ hnext hdel rfl
    exact ⟨rfl, hd, h.charEscaped, h.subshellDepth, h.afterDollar⟩
  · subst hdouble
    have hnext : r.next doubleMark = { r with quote := .double } := by
      simp [Reading.next, he, hq, hsingle]
    have hdel : r.deletes doubleMark = true := by simp [Reading.deletes, he, hq]
    refine Scanner.Reads.follows_deleted ?_ hnext hdel rfl
    exact ⟨hs, rfl, h.charEscaped, h.subshellDepth, h.afterDollar⟩
  · subst hback
    have hnext : r.next backslash = { r with escaped := true } := by
      simp [Reading.next, he, hq, hsingle, hdouble]
    have hdel : r.deletes backslash = true := by simp [Reading.deletes, he, hq]
    refine Scanner.Reads.follows_deleted ?_ hnext hdel rfl
    exact ⟨h.singleQuote, h.doubleQuote, rfl, h.subshellDepth, h.afterDollar⟩
  · refine h.follows_push hescaped ?_ ?_
    · simp [Reading.next, he, hq, hsingle, hdouble, hback, hopen, hclose]
    · simp [Reading.deletes, hq, hsingle, hdouble, hback, hblank]

/-- Inside a quote only its mark is deleted, and it ends the quote. -/
theorem Scanner.Reads.follows_quoted (h : s.Reads r) (he : s.charEscaped = false) {mark : UInt8}
    {closed : Scanner} (hscan : s.scan c none = (if c = mark then closed else s.push c, false))
    (hclosed : closed.Reads { r with quote := .none }) (htext : closed.text = s.text)
    (hnext : r.next c = if c = mark then { r with quote := .none } else r.pass c)
    (hdel : r.deletes c = (c == mark)) : s.Follows r c (s.scan c none).1 := by
  rw [hscan]
  by_cases hc : c = mark
  · rw [if_pos hc] at hnext ⊢
    exact hclosed.follows_deleted hnext (hdel.trans (beq_iff_eq.mpr hc)) htext
  · rw [if_neg hc] at hnext ⊢
    exact h.follows_push he hnext (hdel.trans (beq_false_of_ne hc))

/-- Every iteration moves the reader by its byte and keeps what the reader keeps. -/
theorem Scanner.Reads.follows (h : s.Reads r) (c : UInt8) : s.Follows r c (s.scan c none).1 := by
  cases he : r.escaped with
  | true =>
    have hnext : r.next c = r.pass c := by simp [Reading.next, he]
    have hkeep : r.deletes c = false := by simp [Reading.deletes, he]
    rw [Scanner.scan_escaped (h.charEscaped.trans he)]
    exact (h.push c).follows_kept hnext hkeep (s.text_push c)
  | false =>
    have hescaped : s.charEscaped = false := h.charEscaped.trans he
    cases hq : r.quote with
    | single =>
      have hs : s.singleQuote = true := by rw [h.singleQuote, hq]; rfl
      have hd : s.doubleQuote = false := by rw [h.doubleQuote, hq]; rfl
      refine h.follows_quoted hescaped (Scanner.scan_singleQuoted hescaped hs hd none) ?_ rfl
        (by simp only [Reading.next, he, hq]; rfl) (by simp only [Reading.deletes, he, hq]; rfl)
      exact ⟨rfl, hd, h.charEscaped, h.subshellDepth, h.afterDollar⟩
    | double =>
      have hs : s.singleQuote = false := by rw [h.singleQuote, hq]; rfl
      have hd : s.doubleQuote = true := by rw [h.doubleQuote, hq]; rfl
      refine h.follows_quoted hescaped (Scanner.scan_doubleQuoted hescaped hs hd none) ?_ rfl
        (by simp only [Reading.next, he, hq]; rfl) (by simp only [Reading.deletes, he, hq]; rfl)
      exact ⟨hs, rfl, h.charEscaped, h.subshellDepth, h.afterDollar⟩
    | none =>
      have hs : s.singleQuote = false := by rw [h.singleQuote, hq]; rfl
      have hd : s.doubleQuote = false := by rw [h.doubleQuote, hq]; rfl
      cases hc : isOperator c with
      | true =>
        rw [Scanner.scan_operator hescaped hs hd hc]
        exact h.follows_operator he hq hc
      | false => exact h.follows_unquoted he hq hc

/-- Operators that occur doubled are kept and end a word. -/
theorem Reading.next_doubled (he : r.escaped = false) (hq : r.quote = .none)
    (hc : isDoubled c = true) :
    r.next c = { r with afterDollar := false } ∧ r.deletes c = false := by
  have hop : isOperator c = true ∧ c ≠ byte '(' ∧ c ≠ byte ')' := by
    simp only [isDoubled, Bool.or_eq_true, beq_iff_eq] at hc
    rcases hc with (rfl | rfl) | rfl <;> decide
  obtain ⟨hsingle, hdouble, hback, hblank, hdollar⟩ := not_mark_of_isOperator hop.1
  refine ⟨?_, by simp [deletes, hq, hsingle, hdouble, hback, hblank]⟩
  rw [next_operator he hq hop.1, if_neg fun h => hop.2.1 h.1, if_neg hop.2.2, pass, hdollar, ← he]

/-- A doubled operator is kept with both its bytes. -/
theorem Scanner.Reads.double (h : s.Reads r) (hflag : (s.scan c (some c)).2 = true) :
    (s.flush.addArg [c, c]).Reads ((r.next c).next c) ∧ r.deletes c = false ∧
      (r.next c).deletes c = false := by
  obtain ⟨-, hdoubled, -⟩ := Scanner.scan_double hflag
  obtain ⟨hescaped, hs, hd, -⟩ := Scanner.neutral_of_scan_double hflag
  have he : r.escaped = false := h.charEscaped.symm.trans hescaped
  have hq : r.quote = .none := by
    cases hq : r.quote with
    | none => rfl
    | single => simp [h.singleQuote, hq] at hs
    | double => simp [h.doubleQuote, hq] at hd
  obtain ⟨hnext, hkeep⟩ := Reading.next_doubled he hq hdoubled
  obtain ⟨hnext', hkeep'⟩ :=
    Reading.next_doubled (r := { r with afterDollar := false }) he hq hdoubled
  rw [hnext, hnext']
  have hflush := h.flush
  exact ⟨⟨hflush.singleQuote, hflush.doubleQuote, hflush.charEscaped, hflush.subshellDepth,
    hflush.afterDollar⟩, hkeep, hkeep'⟩

/-- The loop keeps what the reader keeps. -/
theorem Scanner.Reads.text_scanAll {xs : CStr} (h : s.Reads r) (hs : s.scanAll xs = some s') :
    s'.text = s.text ++ r.kept xs := by
  induction s, xs using Scanner.scanAll_induction generalizing r with
  | nil s =>
    obtain rfl : s = s' := Option.some.inj hs
    rw [Reading.kept, List.append_nil]
  | full s c rest hroom =>
    rw [scanAll_full hroom] at hs
    cases hs
  | single s c rest hroom hflag ih =>
    rw [scanAll_single hroom hflag] at hs
    obtain ⟨hreads, htext⟩ := h.follows c
    rw [ih hreads hs, htext, Reading.kept]
    split_ifs
    · rfl
    · rw [List.append_assoc, List.singleton_append]
  | double s c rest hroom hflag ih =>
    rw [scanAll_double hroom hflag] at hs
    obtain ⟨hreads, hfirst, hsecond⟩ := h.double hflag
    rw [ih hreads hs, text_flush_addArg, Reading.kept, hfirst, Reading.kept, hsecond]
    simp

/-- No argument added so far is empty. -/
def Scanner.NoneEmpty (s : Scanner) : Prop := ∀ token ∈ s.argv, token ≠ []

theorem Scanner.NoneEmpty.addArg (h : s.NoneEmpty) {token : CStr} (hne : token ≠ []) :
    (s.addArg token).NoneEmpty := by
  intro t ht
  rcases List.mem_append.mp ht with ht | ht
  · exact h t ht
  · rw [List.mem_singleton.mp ht]
    exact hne

theorem Scanner.NoneEmpty.flush (h : s.NoneEmpty) : s.flush.NoneEmpty := by
  unfold Scanner.flush
  split_ifs with hbuf
  · exact h
  · exact h.addArg hbuf

theorem Scanner.NoneEmpty.scan (h : s.NoneEmpty) (c : UInt8) (next : Option UInt8) :
    (s.scan c next).1.NoneEmpty := by
  unfold Scanner.scan Scanner.scanOperator
  split_ifs
  all_goals first
    | exact h
    | exact h.flush
    | exact h.flush.addArg (List.cons_ne_nil _ _)

theorem Scanner.NoneEmpty.scanAll {xs : CStr} (h : s.NoneEmpty) (hs : s.scanAll xs = some s') :
    s'.NoneEmpty := by
  induction s, xs using Scanner.scanAll_induction with
  | nil s =>
    obtain rfl : s = s' := Option.some.inj hs
    exact h
  | full s c rest hroom =>
    rw [scanAll_full hroom] at hs
    cases hs
  | single s c rest hroom hflag ih =>
    rw [scanAll_single hroom hflag] at hs
    exact ih (h.scan c none) hs
  | double s c rest hroom hflag ih =>
    rw [scanAll_double hroom hflag] at hs
    exact ih (h.flush.addArg (List.cons_ne_nil _ _)) hs

/-- The tokenizer loses and invents nothing: its arguments are not empty, and written behind
each other they are the text without the marks of quotes, the backslashes of escapes and the
blanks between words. -/
theorem flatten_tokenizeCommand {inputStr : CStr} {argv : List CStr}
    (h : tokenizeCommand inputStr = some argv) :
    (∀ token ∈ argv, token ≠ []) ∧ argv.flatten = Reading.kept {} inputStr := by
  obtain ⟨s, hs, rfl⟩ := Option.map_eq_some_iff.mp h
  have hreads : Scanner.Reads {} {} := ⟨rfl, rfl, rfl, rfl, by simp⟩
  have hnone : Scanner.NoneEmpty {} := List.forall_mem_nil _
  refine ⟨(hnone.scanAll hs).flush, ?_⟩
  have htext := hreads.text_scanAll hs
  rw [← s.text_flush, Scanner.text, s.argBuffer_flush, List.append_nil] at htext
  exact htext

theorem flatten_tokenizeCommand_subshell :
    tokenizeCommand (ascii "a 'b c'&&\\ $(d e)") =
        some [ascii "a", ascii "b c", ascii "&&", ascii " $(d e)"] ∧
      Reading.kept {} (ascii "a 'b c'&&\\ $(d e)") = ascii "ab c&& $(d e)" := by
  have h : tokenizeCommand (ascii "a 'b c'&&\\ $(d e)") =
      some [ascii "a", ascii "b c", ascii "&&", ascii " $(d e)"] := by decide +kernel
  exact ⟨h, (flatten_tokenizeCommand h).2.symm⟩

/-- A blank outside quotes is kept though the text has no `$(`, and one inside a balanced `$(`
is deleted. -/
theorem blanks_against_dollar :
    ¬ ascii "$(" <:+: ascii "'$'(a b)" ∧
      tokenizeCommand (ascii "'$'(a b)") = some [ascii "$(a b)"] ∧
      tokenizeCommand (ascii "$((a) b)") = some [ascii "$((a)", ascii "b", ascii ")"] := by
  decide +kernel

end AdMQ
