import AdMQ.Core.Scan

/-!
# Lines and entries of a configuration file

The broker's policy file and the agent's action files are read alike: `fgets` into a
512-byte buffer, both ends of the line trimmed, a first byte that tells headers and
comments from entries, and entries split at their first `=`. As long as every line
fits the buffer, what is read are the physical lines, up to blank ones.
-/

namespace AdMQ

open Core

/-- `trim_whitespace`. -/
def trimWhitespace (str : CStr) : CStr := trim str

/-- A section header starts with an opening bracket. -/
def isHeader (trimmed : CStr) : Bool := trimmed.head? == some (byte '[')

/-- Split at the first `=`, both halves trimmed; `none` when there is no `=`. -/
def keyValue? (trimmed : CStr) : Option (CStr × CStr) :=
  if byte '=' ∈ trimmed then
    some (trimWhitespace (trimmed.takeWhile (· != byte '=')),
      trimWhitespace ((trimmed.dropWhile (· != byte '=')).drop 1))
  else none

/-- The trimmed lines that a loop over `fgets` into a 512-byte buffer reads from a file. -/
def readLines (text : List UInt8) : List CStr :=
  (fgets 512 text).map fun block => trimWhitespace (cstr block)

/-- The lines of a text, without their newlines. -/
def physicalLines (text : List UInt8) : List CStr := text.splitOn newline

/-- The value of the last entry for a key. -/
def lastValue (key : CStr) (entries : List (CStr × CStr)) : Option CStr :=
  (entries.filter fun e => decide (e.1 = key)).getLast?.map Prod.snd

theorem lastValue_concat (key : CStr) (entries : List (CStr × CStr)) (e : CStr × CStr) :
    lastValue key (entries ++ [e]) = if e.1 = key then some e.2 else lastValue key entries := by
  unfold lastValue
  by_cases he : e.1 = key
  · simp [he, List.filter_append]
  · simp [he, List.filter_append]

theorem physicalLines_line {l : CStr} (hl : newline ∉ l) (rest : List UInt8) :
    physicalLines (l ++ newline :: rest) = l :: physicalLines rest :=
  List.splitOn_append_cons_self_of_not_mem hl rest

theorem physicalLines_last {l : CStr} (hl : newline ∉ l) : physicalLines l = [l] :=
  List.splitOn_eq_singleton hl

/-- The start of a text, or what stands in front of one of its lines. -/
def EndsLine (before : List UInt8) : Prop := before = [] ∨ ∃ p, before = p ++ [newline]

/-- The blocks of a text are those up to a newline and those behind it. -/
theorem fgetsFrom_append_newline (cap : Nat) (xs rest acc : List UInt8) :
    fgetsFrom cap (xs ++ newline :: rest) acc =
      fgetsFrom cap (xs ++ [newline]) acc ++ fgetsFrom cap rest [] := by
  induction xs generalizing acc with
  | nil => rw [List.nil_append, List.nil_append, fgetsFrom_newline, fgetsFrom_newline]; rfl
  | cons b xs ih =>
    rw [List.cons_append, List.cons_append, fgetsFrom, fgetsFrom]
    split
    · rw [ih, List.cons_append]
    · exact ih _

theorem readLines_append {before : List UInt8} (h : EndsLine before) (rest : List UInt8) :
    readLines (before ++ rest) = readLines before ++ readLines rest := by
  rcases h with rfl | ⟨p, rfl⟩
  · rfl
  · rw [readLines, fgets, List.append_assoc, List.singleton_append, fgetsFrom_append_newline,
      List.map_append]
    rfl

/-- No NUL stands in front of the first byte that is not white space, so trimming finds it. -/
theorem head?_trim_cstr {l : CStr} {b : UInt8} (h : (l.dropWhile isspace).head? = some b)
    (hb : b ≠ 0) (rest : List UInt8) : (trim (cstr (l ++ rest))).head? = some b := by
  obtain ⟨text, htext⟩ := List.head?_eq_some_iff.mp h
  have hblank : ∀ c ∈ l.takeWhile isspace, isspace c = true := fun c hc =>
    List.mem_takeWhile_imp hc
  have hnul : ∀ c ∈ l.takeWhile isspace, (c != 0) = true := by
    intro c hc
    rw [bne_iff_ne]
    rintro rfl
    exact absurd (hblank 0 hc) (by decide)
  have hsplit : l = l.takeWhile isspace ++ b :: text := by
    rw [← htext, List.takeWhile_append_dropWhile]
  have hbspace : isspace b = false := head?_dropWhile_isspace l b h
  rw [head?_trim, hsplit, cstr, List.append_assoc, List.takeWhile_append_of_pos hnul,
    List.dropWhile_append_of_pos hblank, List.cons_append,
    List.takeWhile_cons_of_pos (by rw [bne_iff_ne]; exact hb),
    List.dropWhile_cons_of_neg (by rw [hbspace]; decide)]
  rfl

/-- Within the line length the lines read are the physical ones, up to blank lines. -/
theorem filter_readLines (text : List UInt8) (hlines : ∀ l ∈ physicalLines text, l.length ≤ 510)
    (hnul : 0 ∉ text) :
    (readLines text).filter (· ≠ []) =
      ((physicalLines text).map trimWhitespace).filter (· ≠ []) := by
  induction text using line_induction with
  | last l hl =>
    rw [physicalLines_last hl] at hlines ⊢
    have hlen := hlines l (List.mem_singleton_self l)
    rw [readLines, fgets_last hl (by omega)]
    by_cases he : l = []
    · subst he
      rfl
    · simp [he, cstr_eq_self hnul]
  | line l rest hl ih =>
    rw [physicalLines_line hl] at hlines ⊢
    have hlen := hlines l (List.mem_cons_self ..)
    simp only [List.mem_append, List.mem_cons, not_or] at hnul
    have hblock : cstr (l ++ [newline]) = l ++ [newline] :=
      cstr_eq_self (by simpa using ⟨hnul.1, hnul.2.1⟩)
    rw [readLines, fgets_line hl (by omega), List.map_cons, List.map_cons, hblock]
    have htrim : trimWhitespace (l ++ [newline]) = trimWhitespace l := trim_concat (by decide) l
    have hrest := ih (fun x hx => hlines x (List.mem_cons_of_mem _ hx)) hnul.2.2
    rw [htrim, List.filter_cons, List.filter_cons]
    exact ite_congr rfl (fun _ => congrArg _ hrest) fun _ => hrest

end AdMQ
