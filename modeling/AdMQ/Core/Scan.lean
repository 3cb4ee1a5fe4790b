import AdMQ.Core.CString

/-!
# Conversions of `sscanf`

What the conversions read when the input begins with something they accept, and
conversely how the input was composed when they succeed.
-/

namespace Core

/-- An ordinary character of a format: the next byte has to be the same. -/
def scanByte (b : UInt8) : CStr → Option CStr
  | [] => none
  | c :: rest => if c = b then some rest else none

@[simp] theorem scanByte_cons_self (b : UInt8) (rest : CStr) :
    scanByte b (b :: rest) = some rest := if_pos rfl

theorem eq_cons_of_scanByte {b : UInt8} {s rest : CStr} (h : scanByte b s = some rest) :
    s = b :: rest := by
  cases s with
  | nil => cases h
  | cons c s =>
    rw [scanByte] at h
    split at h
    next hc => rw [hc, Option.some.inj h]
    · cases h

/-- What `%ws` can read: one to `w` bytes without white space. -/
structure IsWord (w : Nat) (s : CStr) : Prop where
  ne_nil : s ≠ []
  length_le : s.length ≤ w
  not_isspace : ∀ b ∈ s, isspace b = false

variable {w : Nat} {b : UInt8} {s word rest : CStr}

theorem isWord_iff :
    IsWord w s ↔ s ≠ [] ∧ s.length ≤ w ∧ (s.all fun b => isspace b == false) = true := by
  simp only [List.all_eq_true, beq_iff_eq]
  exact ⟨fun h => ⟨h.ne_nil, h.length_le, h.not_isspace⟩, fun ⟨hne, hlen, hspace⟩ =>
    ⟨hne, hlen, hspace⟩⟩

instance (w : Nat) (s : CStr) : Decidable (IsWord w s) := decidable_of_iff _ isWord_iff.symm

theorem bne_of_notMem (h : b ∉ s) : ∀ c ∈ s, (c != b) = true := by
  intro c hc
  rw [bne_iff_ne]
  rintro rfl
  exact h hc

/-- A stretch that goes on, up to a byte that stops it. -/
theorem takeWhile_append_stop {p : UInt8 → Bool} (hword : ∀ c ∈ word, p c = true)
    (hstop : ∀ c ∈ rest.head?, p c = false) : (word ++ rest).takeWhile p = word := by
  rw [List.takeWhile_append_of_pos hword]
  cases rest with
  | nil => simp
  | cons c rest => simp [hstop c (by simp)]

/-- A string that begins with something else loses no white space. -/
theorem dropWhile_isspace_eq_self (h : ∀ b ∈ s.head?, isspace b = false) :
    s.dropWhile isspace = s := by
  cases s with
  | nil => rfl
  | cons b s => simp [h b (by simp)]

theorem head?_dropWhile_isspace (s : CStr) :
    ∀ b ∈ (s.dropWhile isspace).head?, isspace b = false := by
  intro b hb
  have hne : s.dropWhile isspace ≠ [] := by
    intro hnil
    simp [hnil] at hb
  rw [List.head?_eq_some_head hne, Option.mem_some_iff] at hb
  simpa [hb] using List.head_dropWhile_not isspace hne

/-- A trimmed string begins with the first byte that is not white space. -/
theorem head?_trim (s : CStr) : (trim s).head? = (s.dropWhile isspace).head? := by
  cases hdrop : s.dropWhile isspace with
  | nil => rw [trim, hdrop]; rfl
  | cons b rest =>
    have hb : isspace b = false := head?_dropWhile_isspace s b (by rw [hdrop]; rfl)
    cases htrim : trim s with
    | nil =>
      rw [trim, hdrop, List.rdropWhile_eq_nil_iff] at htrim
      have hspace := htrim b (List.mem_cons_self ..)
      rw [hb] at hspace
      cases hspace
    | cons c front =>
      obtain ⟨back, hback⟩ := trim_isPrefix s
      rw [htrim, hdrop] at hback
      exact congrArg some (List.cons.inj hback).1

theorem IsWord.head? (h : IsWord w word) : ∀ b ∈ (word ++ rest).head?, isspace b = false := by
  obtain ⟨c, tail, rfl⟩ := List.exists_cons_of_ne_nil h.ne_nil
  intro b hb
  obtain rfl : c = b := by simpa using hb
  exact h.not_isspace c (List.mem_cons_self ..)

/-- No white space stands in a word. -/
theorem IsWord.notMem (h : IsWord w word) (hb : isspace b = true) : b ∉ word := by
  intro hmem
  rw [h.not_isspace b hmem] at hb
  cases hb

/-- White space in front of a word is skipped. -/
theorem scanWord_cons_space (hb : isspace b = true) (s : CStr) :
    scanWord w (b :: s) = scanWord w s := by
  simp [scanWord, hb]

/-- A word is read up to the white space behind it. -/
theorem IsWord.scanWord_append (h : IsWord w word) (hrest : ∀ b ∈ rest.head?, isspace b = true) :
    scanWord w (word ++ rest) = some (word, rest) := by
  have hword : (word ++ rest).takeWhile (fun b => !isspace b) = word :=
    takeWhile_append_stop (by simpa using h.not_isspace) (by simpa using hrest)
  simp [scanWord, dropWhile_isspace_eq_self h.head?, hword, List.take_of_length_le h.length_le,
    h.ne_nil]

theorem IsWord.scanWord_space (h : IsWord w word) (hb : isspace b = true) (rest : CStr) :
    scanWord w (word ++ b :: rest) = some (word, b :: rest) :=
  h.scanWord_append (by simpa using hb)

/-- A word is read as soon as there is anything but white space. -/
theorem exists_scanWord (hw : 0 < w) {c : UInt8} (hc : c ∈ s) (hspace : isspace c = false) :
    ∃ word rest, scanWord w s = some (word, rest) := by
  have hne : s.dropWhile isspace ≠ [] := by
    rw [Ne, List.dropWhile_eq_nil_iff]
    intro hall
    exact absurd (hall c hc) (by simp [hspace])
  obtain ⟨d, tail, hd⟩ := List.exists_cons_of_ne_nil hne
  have hdspace : isspace d = false := head?_dropWhile_isspace s d (by simp [hd])
  obtain ⟨w, rfl⟩ := Nat.exists_eq_succ_of_ne_zero hw.ne'
  simp [scanWord, hd, hdspace]

/-- A word that was read, with the white space in front of it and what is left. -/
theorem isWord_of_scanWord (h : scanWord w s = some (word, rest)) :
    IsWord w word ∧ ∃ blanks, s = blanks ++ (word ++ rest) := by
  simp only [scanWord] at h
  split at h
  · cases h
  next hne =>
    obtain ⟨hword, rfl⟩ := Prod.mk.inj (Option.some.inj h)
    have hfront : word <+: (s.dropWhile isspace).takeWhile fun b => !isspace b := by
      rw [← hword]
      exact List.take_prefix _ _
    refine ⟨⟨?_, ?_, ?_⟩, s.takeWhile isspace, ?_⟩
    · rwa [← hword]
    · rw [← hword]
      exact List.length_take_le _ _
    · intro b hb
      simpa using List.mem_takeWhile_imp (hfront.subset hb)
    · obtain ⟨t, ht⟩ := hfront.trans (List.takeWhile_prefix _)
      rw [hword, ← ht, List.drop_left, ht, List.takeWhile_append_dropWhile]

/-- A scan set conversion reads up to the excluded byte. -/
theorem scanUntil_append (hne : word ≠ []) (hlen : word.length ≤ w) (hb : b ∉ word)
    (hrest : ∀ c ∈ rest.head?, c = b) : scanUntil w b (word ++ rest) = some (word, rest) := by
  have hword : (word ++ rest).takeWhile (· != b) = word :=
    takeWhile_append_stop (bne_of_notMem hb) (by simpa using hrest)
  simp [scanUntil, hword, List.take_of_length_le hlen, hne]

theorem scanUntil_self (hne : word ≠ []) (hlen : word.length ≤ w) (hb : b ∉ word) :
    scanUntil w b word = some (word, []) := by
  have h : scanUntil w b (word ++ []) = some (word, []) := scanUntil_append hne hlen hb (by simp)
  rwa [List.append_nil] at h

/-- The bytes that a scan set conversion has read. -/
theorem of_scanUntil (h : scanUntil w b s = some (word, rest)) :
    word ≠ [] ∧ word.length ≤ w ∧ b ∉ word ∧ s = word ++ rest := by
  simp only [scanUntil] at h
  split at h
  · cases h
  next hne =>
    obtain ⟨hword, rfl⟩ := Prod.mk.inj (Option.some.inj h)
    have hfront : word <+: s.takeWhile (· != b) := by
      rw [← hword]
      exact List.take_prefix _ _
    refine ⟨?_, ?_, ?_, ?_⟩
    · rwa [← hword]
    · rw [← hword]
      exact List.length_take_le _ _
    · intro hb
      simpa using List.mem_takeWhile_imp (hfront.subset hb)
    · obtain ⟨t, ht⟩ := hfront.trans (List.takeWhile_prefix _)
      rw [hword, ← ht, List.drop_left]

/-- A scan set conversion fails on the excluded byte. -/
theorem scanUntil_cons_self (w : Nat) (b : UInt8) (s : CStr) : scanUntil w b (b :: s) = none := by
  simp [scanUntil]

@[simp] theorem scanUntil_nil (w : Nat) (b : UInt8) : scanUntil w b [] = none := by
  simp [scanUntil]

/-- A string without NUL is the same block of memory. -/
theorem cstr_eq_self (h : 0 ∉ s) : cstr s = s := by
  rw [cstr, List.takeWhile_eq_self_iff]
  exact bne_of_notMem h

/-- Nothing behind a terminator belongs to the string. -/
theorem cstr_append_zero (s rest : List UInt8) : cstr (s ++ 0 :: rest) = cstr s := by
  induction s with
  | nil => rfl
  | cons b s ih =>
    by_cases hb : b = 0
    · rw [hb]
      rfl
    · have hne : (b != 0) = true := bne_iff_ne.mpr hb
      rw [List.cons_append, cstr, cstr, List.takeWhile_cons_of_pos (p := (· != 0)) hne,
        List.takeWhile_cons_of_pos (p := (· != 0)) hne]
      exact congrArg (b :: ·) ih

/-- A string holds no NUL. -/
theorem nul_notMem_cstr (block : List UInt8) : 0 ∉ cstr block := fun h => by
  simpa using List.mem_takeWhile_imp h

/-- What stands in front of the first `b`: either the whole string or what a `b` follows. -/
theorem takeWhile_bne_eq_iff {t g : CStr} :
    t.takeWhile (· != b) = g ↔ b ∉ g ∧ (t = g ∨ g ++ [b] <+: t) := by
  constructor
  · rintro rfl
    refine ⟨fun hb => by simpa using List.mem_takeWhile_imp hb, ?_⟩
    by_cases h : b ∈ t
    · obtain ⟨l, r, rfl, hl⟩ := List.eq_append_cons_of_mem h
      rw [takeWhile_append_stop (bne_of_notMem hl) (by simp)]
      exact .inr ⟨r, by simp⟩
    · exact .inl (List.takeWhile_eq_self_iff.mpr (bne_of_notMem h)).symm
  · rintro ⟨hb, rfl | ⟨r, rfl⟩⟩
    · exact List.takeWhile_eq_self_iff.mpr (bne_of_notMem hb)
    · rw [List.append_assoc]
      exact takeWhile_append_stop (bne_of_notMem hb) (by simp)

/-- A stretch without newlines in front of a text belongs to its first line. -/
theorem splitOn_append_left {front : CStr} (hfront : newline ∉ front) (text : List UInt8) :
    (front ++ text).splitOn newline =
      (front ++ text.takeWhile (· != newline)) :: (text.splitOn newline).tail := by
  by_cases h : newline ∈ text
  · obtain ⟨l, rest, rfl, hl⟩ := List.eq_append_cons_of_mem h
    rw [takeWhile_append_stop (bne_of_notMem hl) (by simp), ← List.append_assoc,
      List.splitOn_append_cons_self_of_not_mem (by simp [hfront, hl]),
      List.splitOn_append_cons_self_of_not_mem hl, List.tail_cons]
  · rw [List.takeWhile_eq_self_iff.mpr (bne_of_notMem h),
      List.splitOn_eq_singleton (by simp [hfront, h]), List.splitOn_eq_singleton h, List.tail_cons]

end Core
