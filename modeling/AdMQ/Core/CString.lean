import Mathlib.Data.List.Basic
import Mathlib.Data.List.DropRight

/-!
# Byte strings as the C library reads them

A C string is the list of bytes before its terminator. The definitions follow
the C standard's wording for the functions of `string.h`, `ctype.h` and `stdio.h`
in the C locale. No buffer is modelled here: a function that writes at most
`n` bytes returns the bytes it writes.
-/

namespace Core

/-- The bytes of a string, without the terminating NUL. -/
abbrev CStr := List UInt8

/-- The code of an ASCII character. -/
def byte (c : Char) : UInt8 := c.toNat.toUInt8

/-- The bytes of an ASCII literal. -/
def ascii (s : String) : CStr := s.toList.map byte

/-- The newline byte. -/
def newline : UInt8 := byte '\n'

/-- `isspace` in the C locale: blank, or one of the five control characters from tab to return. -/
def isspace (b : UInt8) : Bool := b == 32 || (9 ≤ b && b ≤ 13)

/-- What the string functions see of a block of bytes: everything before its first NUL. -/
def cstr (block : List UInt8) : CStr := block.takeWhile (· != 0)

/-- A string with the white space at both ends removed. -/
def trim (s : CStr) : CStr := (s.dropWhile isspace).rdropWhile isspace

/-- The tokens that successive `strtok` calls return for one delimiter byte. -/
def strtok (delim : UInt8) (s : CStr) : List CStr := (s.splitOn delim).filter (· ≠ [])

/-- The blocks that successive `fgets` calls of capacity `cap + 1` return; `acc` holds the
bytes of the current block in reverse. -/
def fgetsFrom (cap : Nat) : List UInt8 → List UInt8 → List (List UInt8)
  | [], acc => if acc = [] then [] else [acc.reverse]
  | b :: rest, acc =>
    if b = newline ∨ cap ≤ acc.length + 1 then (b :: acc).reverse :: fgetsFrom cap rest []
    else fgetsFrom cap rest (b :: acc)

/-- The blocks read from a file by `fgets(line, size, file)` until it returns NULL. -/
def fgets (size : Nat) (text : List UInt8) : List (List UInt8) := fgetsFrom (size - 1) text []

/-- `%d` of an `int`. -/
def decimal : Int → CStr
  | .ofNat n => (Nat.toDigits 10 n).map byte
  | .negSucc n => ascii "-" ++ (Nat.toDigits 10 (n + 1)).map byte

/-- A `%ws` conversion of `sscanf`: white space is skipped, then at most `w` other bytes
are read; it fails when none is left. The unread input is returned with the word. -/
def scanWord (w : Nat) (s : CStr) : Option (CStr × CStr) :=
  let body := s.dropWhile isspace
  let word := (body.takeWhile fun b => !isspace b).take w
  if word = [] then none else some (word, body.drop word.length)

/-- A `%w[^b]` conversion of `sscanf`: at most `w` bytes other than `b`, and at least one. -/
def scanUntil (w : Nat) (b : UInt8) (s : CStr) : Option (CStr × CStr) :=
  let word := (s.takeWhile (· != b)).take w
  if word = [] then none else some (word, s.drop word.length)

/-! ## Texts and their lines -/

/-- Induction over the pieces of a text between the occurrences of a byte: the last piece,
and a piece put in front. -/
theorem piece_induction (b : UInt8) {P : List UInt8 → Prop} (last : ∀ l, b ∉ l → P l)
    (piece : ∀ l rest, b ∉ l → P rest → P (l ++ b :: rest)) (text : List UInt8) : P text := by
  induction hn : text.length using Nat.strong_induction_on generalizing text with
  | _ n ih =>
    by_cases h : b ∈ text
    · obtain ⟨l, rest, rfl, hl⟩ := List.eq_append_cons_of_mem h
      refine piece l rest hl (ih rest.length ?_ rest rfl)
      simp only [List.length_append, List.length_cons] at hn
      omega
    · exact last text h

/-- Induction over the lines of a text: the unterminated last line, and a line put in front. -/
theorem line_induction {P : List UInt8 → Prop} (last : ∀ l, newline ∉ l → P l)
    (line : ∀ l rest, newline ∉ l → P rest → P (l ++ newline :: rest)) (text : List UInt8) :
    P text :=
  piece_induction newline last line text

/-- The newline-terminated lines of a text, without their newlines. -/
def completeLines (text : List UInt8) : List CStr := (text.splitOn newline).dropLast

/-- What follows the last newline of a text. -/
def unterminated (text : List UInt8) : CStr :=
  (text.splitOn newline).getLast (List.splitOn_ne_nil newline text)

theorem completeLines_last {l : CStr} (hl : newline ∉ l) : completeLines l = [] := by
  rw [completeLines, List.splitOn_eq_singleton hl, List.dropLast_singleton]

theorem unterminated_last {l : CStr} (hl : newline ∉ l) : unterminated l = l := by
  simp only [unterminated, List.splitOn_eq_singleton hl, List.getLast_singleton]

theorem completeLines_line {l : CStr} (hl : newline ∉ l) (rest : List UInt8) :
    completeLines (l ++ newline :: rest) = l :: completeLines rest := by
  rw [completeLines, List.splitOn_append_cons_self_of_not_mem hl,
    List.dropLast_cons_of_ne_nil (List.splitOn_ne_nil _ _), completeLines]

theorem unterminated_line {l : CStr} (hl : newline ∉ l) (rest : List UInt8) :
    unterminated (l ++ newline :: rest) = unterminated rest := by
  simp only [unterminated, List.splitOn_append_cons_self_of_not_mem hl]
  exact List.getLast_cons _

/-- What is left unterminated holds no newline. -/
theorem newline_notMem_unterminated (text : List UInt8) : newline ∉ unterminated text := by
  induction text using line_induction with
  | last l hl => rwa [unterminated_last hl]
  | line l rest hl ih => rwa [unterminated_line hl]

/-- What is left unterminated stands in the text. -/
theorem mem_of_mem_unterminated {b : UInt8} {text : List UInt8} (h : b ∈ unterminated text) :
    b ∈ text := by
  induction text using line_induction with
  | last l hl => rwa [unterminated_last hl] at h
  | line l rest hl ih =>
    rw [unterminated_line hl] at h
    exact List.mem_append_right _ (List.mem_cons_of_mem _ (ih h))

/-- So does every line. -/
theorem mem_of_mem_completeLines {l : CStr} {text : List UInt8} (hl : l ∈ completeLines text)
    {b : UInt8} (h : b ∈ l) : b ∈ text := by
  induction text using line_induction with
  | last m hm =>
    rw [completeLines_last hm] at hl
    cases hl
  | line m rest hm ih =>
    rw [completeLines_line hm, List.mem_cons] at hl
    rw [List.mem_append, List.mem_cons]
    rcases hl with rfl | hl
    · exact Or.inl h
    · exact Or.inr (Or.inr (ih hl))

/-- Text behind a cut continues the line that was left unterminated there. -/
theorem splitOn_append (text more : List UInt8) :
    (text ++ more).splitOn newline =
      completeLines text ++ (unterminated text ++ more).splitOn newline := by
  induction text using line_induction with
  | last l hl => rw [completeLines_last hl, unterminated_last hl, List.nil_append]
  | line l rest hl ih =>
    rw [List.append_assoc, List.cons_append, List.splitOn_append_cons_self_of_not_mem hl, ih,
      completeLines_line hl, unterminated_line hl, List.cons_append]

/-- A stretch without newlines at the start of a text begins one of its lines. -/
theorem exists_mem_splitOn_of_append {l : CStr} (hl : newline ∉ l) (more : List UInt8) :
    ∃ piece ∈ (l ++ more).splitOn newline, l <+: piece := by
  by_cases h : newline ∈ more
  · obtain ⟨m, rest, rfl, hm⟩ := List.eq_append_cons_of_mem h
    refine ⟨l ++ m, ?_, List.prefix_append ..⟩
    rw [← List.append_assoc, List.splitOn_append_cons_self_of_not_mem (by simp [hl, hm])]
    exact List.mem_cons_self ..
  · refine ⟨l ++ more, ?_, List.prefix_append ..⟩
    rw [List.splitOn_eq_singleton (by simp [hl, h])]
    exact List.mem_singleton_self _

/-- The lines of a text that continues behind a cut. -/
theorem completeLines_append (text more : List UInt8) :
    completeLines (text ++ more) =
      completeLines text ++ completeLines (unterminated text ++ more) := by
  rw [completeLines, splitOn_append, List.dropLast_append_of_ne_nil (List.splitOn_ne_nil _ _)]
  rfl

theorem unterminated_append (text more : List UInt8) :
    unterminated (text ++ more) = unterminated (unterminated text ++ more) := by
  induction text using line_induction with
  | last l hl => rw [unterminated_last hl]
  | line l rest hl ih =>
    rw [List.append_assoc, List.cons_append, unterminated_line hl, unterminated_line hl, ih]

/-- The lines of a text whose last line is terminated. -/
theorem completeLines_concat (text : List UInt8) :
    completeLines (text ++ [newline]) = text.splitOn newline := by
  induction text using line_induction with
  | last l hl =>
    rw [completeLines_line hl, List.splitOn_eq_singleton hl]
    rfl
  | line l rest hl ih =>
    rw [List.append_assoc, List.cons_append, completeLines_line hl, ih,
      List.splitOn_append_cons_self_of_not_mem hl]

/-- No piece is longer than its text. -/
theorem length_le_of_mem_splitOn {b : UInt8} {l : CStr} {text : List UInt8}
    (h : l ∈ text.splitOn b) : l.length ≤ text.length := by
  induction text using piece_induction b with
  | last m hm =>
    rw [List.splitOn_eq_singleton hm, List.mem_singleton] at h
    rw [h]
  | piece m rest hm ih =>
    rw [List.splitOn_append_cons_self_of_not_mem hm, List.mem_cons] at h
    rw [List.length_append, List.length_cons]
    rcases h with rfl | h
    · omega
    · have hle := ih h
      omega

/-! ## White space at the ends -/

/-- A trailing white-space byte is trimmed away with the rest. -/
theorem trim_concat {b : UInt8} (hb : isspace b = true) (s : CStr) : trim (s ++ [b]) = trim s := by
  unfold trim
  rw [List.dropWhile_append]
  split
  · next h =>
    have hs : s.dropWhile isspace = [] := by simpa using h
    simp [hs, hb]
  · rw [List.rdropWhile_concat_pos _ _ _ hb]

theorem trim_isPrefix (s : CStr) : trim s <+: s.dropWhile isspace := List.rdropWhile_prefix ..

/-- Trimming keeps only bytes of the string. -/
theorem mem_of_mem_trim {b : UInt8} {s : CStr} (h : b ∈ trim s) : b ∈ s :=
  (List.dropWhile_sublist _).subset ((trim_isPrefix s).subset h)

theorem fgetsFrom_nil (cap : Nat) {acc : List UInt8} (h : acc ≠ []) :
    fgetsFrom cap [] acc = [acc.reverse] := by
  simp [fgetsFrom, h]

/-- A newline ends the block it stands in. -/
theorem fgetsFrom_newline (cap : Nat) (rest acc : List UInt8) :
    fgetsFrom cap (newline :: rest) acc = (acc.reverse ++ [newline]) :: fgetsFrom cap rest [] := by
  simp [fgetsFrom]

/-- Any other byte joins the block while there is room for two more. -/
theorem fgetsFrom_cons {cap : Nat} {b : UInt8} {acc : List UInt8} (hb : b ≠ newline)
    (hroom : acc.length + 1 < cap) (rest : List UInt8) :
    fgetsFrom cap (b :: rest) acc = fgetsFrom cap rest (b :: acc) := by
  simp [fgetsFrom, hb, Nat.not_le.mpr hroom]

/-- A newline-free stretch that leaves room for one more byte is collected whole. -/
theorem fgetsFrom_append {cap : Nat} {xs : List UInt8} {acc : List UInt8} (hxs : newline ∉ xs)
    (hroom : acc.length + xs.length < cap) (rest : List UInt8) :
    fgetsFrom cap (xs ++ rest) acc = fgetsFrom cap rest (xs.reverse ++ acc) := by
  induction xs generalizing acc with
  | nil => rfl
  | cons b xs ih =>
    simp only [List.mem_cons, not_or, List.length_cons] at hxs hroom
    rw [List.cons_append, fgetsFrom_cons (Ne.symm hxs.1) (by omega),
      ih hxs.2 (by simp only [List.length_cons]; omega)]
    simp

/-- A line that leaves room for its newline is read with it as one block. -/
theorem fgets_line {size : Nat} {l : CStr} (hl : newline ∉ l) (hlen : l.length + 1 < size)
    (rest : List UInt8) :
    fgets size (l ++ newline :: rest) = (l ++ [newline]) :: fgets size rest := by
  rw [fgets, fgetsFrom_append hl (by simp only [List.length_nil]; omega), fgetsFrom_newline]
  simp [fgets]

/-- So is an unterminated last line, unless it is empty. -/
theorem fgets_last {size : Nat} {l : CStr} (hl : newline ∉ l) (hlen : l.length + 1 < size) :
    fgets size l = if l = [] then [] else [l] := by
  have h := fgetsFrom_append hl
    (show ([] : List UInt8).length + l.length < size - 1 by simp; omega) []
  rw [List.append_nil] at h
  rw [fgets, h]
  by_cases he : l = []
  · simp [he, fgetsFrom]
  · simp [he, fgetsFrom]

theorem toNat_byte {c : Char} (h : c.toNat < 256) : (byte c).toNat = c.toNat := by
  rw [byte, Nat.toUInt8, UInt8.toNat_ofNat']
  exact Nat.mod_eq_of_lt h

/-- The code of a character below 256 determines it. -/
theorem ofNat_byte {c : Char} (h : c.toNat < 256) : Char.ofNat (byte c).toNat = c := by
  rw [toNat_byte h, Char.ofNat_toNat]

theorem toNat_lt_of_isDigit {c : Char} (h : c.isDigit = true) : 48 ≤ c.toNat ∧ c.toNat < 58 := by
  simp only [Char.isDigit, Bool.and_eq_true, decide_eq_true_eq] at h
  have h1 := UInt32.le_iff_toNat_le.mp h.1
  have h2 := UInt32.le_iff_toNat_le.mp h.2
  exact ⟨h1, Nat.lt_succ_of_le h2⟩

/-- The decimal digits of a natural number determine it. -/
theorem map_byte_toDigits_injective {m n : Nat}
    (h : (Nat.toDigits 10 m).map byte = (Nat.toDigits 10 n).map byte) : m = n := by
  have hback (k : Nat) :
      ((Nat.toDigits 10 k).map byte).map (fun b => Char.ofNat b.toNat) = Nat.toDigits 10 k := by
    rw [List.map_map]
    refine (List.map_congr_left ?_).trans (List.map_id _)
    intro c hc
    have hd := toNat_lt_of_isDigit (Nat.isDigit_of_mem_toDigits (by decide) (by decide) hc)
    exact ofNat_byte (by omega)
  have hd : Nat.toDigits 10 m = Nat.toDigits 10 n := by rw [← hback m, h, hback n]
  rw [← Nat.ofDigitChars_ten_toDigits (n := m), hd, Nat.ofDigitChars_ten_toDigits]

/-- A negative number starts with the sign, and digits are no sign. -/
theorem sign_notMem_toDigits (n : Nat) : byte '-' ∉ (Nat.toDigits 10 n).map byte := by
  intro h
  obtain ⟨c, hc, he⟩ := List.mem_map.mp h
  have hd := toNat_lt_of_isDigit (Nat.isDigit_of_mem_toDigits (by decide) (by decide) hc)
  have hcode : c = '-' := by
    rw [← ofNat_byte (c := c) (by omega), he]
    decide
  subst hcode
  exact absurd hd.1 (by decide)

/-- `%d` never prints two numbers alike. -/
theorem decimal_injective : Function.Injective decimal := by
  intro m n h
  cases m with
  | ofNat m =>
    cases n with
    | ofNat n => rw [map_byte_toDigits_injective h]
    | negSucc n =>
      have hs : byte '-' ∈ decimal (.negSucc n) := by simp [decimal, ascii]
      rw [← h] at hs
      exact absurd hs (sign_notMem_toDigits m)
  | negSucc m =>
    cases n with
    | ofNat n =>
      have hs : byte '-' ∈ decimal (.negSucc m) := by simp [decimal, ascii]
      rw [h] at hs
      exact absurd hs (sign_notMem_toDigits n)
    | negSucc n =>
      have hd := map_byte_toDigits_injective (List.append_cancel_left h)
      rw [Nat.succ_injective hd]

end Core
