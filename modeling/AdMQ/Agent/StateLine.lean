import AdMQ.Agent.Message
import AdMQ.Broker.Serial.Replies

/-!
# The lines of the one-shot mode

What the broker makes of a message `SET` with any text behind it: the lines, the
command of the first line, and when this command is the key and the value that
were put into the text, or no `SET` at all.
-/

namespace AdMQ

open Core

variable {key value : CStr}

/-! ## The lines of a `SET` message -/

/-- Every line but the first is empty up to its first return character. -/
def SingleLine (text : CStr) : Prop := ∀ line ∈ (text.splitOn newline).tail, messageOf line = []

/-- At most one word, and none that is longer than a key. -/
def OneItem (text : CStr) : Prop :=
  (firstWord text).length ≤ 63 ∧ ∀ b ∈ afterWord text, isspace b = true

/-- A value that the broker reads as it is. -/
structure PlainValue (value : CStr) : Prop where
  head?_value : ∀ b ∈ value.head?, isspace b = false
  return_value : byte '\r' ∉ value
  newline_value : newline ∉ value

theorem plainValue_iff :
    PlainValue value ↔ (value.head?.all fun b => isspace b == false) = true ∧
      byte '\r' ∉ value ∧ newline ∉ value := by
  have hhead : (∀ b ∈ value.head?, isspace b = false) ↔
      (value.head?.all fun b => isspace b == false) = true := by
    cases value <;> simp
  rw [← hhead]
  exact ⟨fun h => ⟨h.1, h.2, h.3⟩, fun h => ⟨h.1, h.2.1, h.2.2⟩⟩

instance : Decidable (PlainValue value) := decidable_of_iff _ plainValue_iff.symm

theorem newline_notMem_set : newline ∉ ascii "SET " := by decide

theorem completeLines_set (text : CStr) :
    completeLines (ascii "SET " ++ text ++ [newline]) =
      (ascii "SET " ++ text.takeWhile (· != newline)) :: (text.splitOn newline).tail := by
  rw [completeLines_concat, splitOn_append_left newline_notMem_set]

theorem messageOf_set (text : CStr) :
    messageOf (ascii "SET " ++ text.takeWhile (· != newline)) = ascii "SET " ++ cutLine text := by
  have hset : ∀ b ∈ ascii "SET ", (b != byte '\r') = true := List.all_eq_true.mp rfl
  rw [messageOf, List.takeWhile_append_of_pos hset, List.takeWhile_takeWhile, cutLine]
  simp only [Bool.decide_and, Bool.decide_eq_true]

theorem serveLines_of_blank (b : Tables) (sender : Sender) {lines : List CStr}
    (h : ∀ line ∈ lines, messageOf line = []) : b.serveLines sender lines = ⟨b, [], []⟩ := by
  induction lines with
  | nil => rfl
  | cons line lines ih =>
    rw [List.forall_mem_cons] at h
    simp only [Tables.serveLines, Tables.serveLine, if_pos h.1, ih h.2]
    rfl

/-- The lines of a `SET` message are one command exactly if all but the first are empty. -/
theorem once_iff (text : CStr) :
    ((completeLines (ascii "SET " ++ text ++ [newline])).filter (messageOf · ≠ [])).length = 1 ↔
      SingleLine text := by
  have hfirst : messageOf (ascii "SET " ++ text.takeWhile (· != newline)) ≠ [] := by
    rw [messageOf_set]
    exact List.append_ne_nil_of_left_ne_nil (by decide) _
  rw [completeLines_set, List.filter_cons_of_pos (by simpa using hfirst), List.length_cons,
    Nat.add_eq_right, List.length_eq_zero_iff, List.filter_eq_nil_iff]
  simp [SingleLine]

/-- A single command is executed as the first line says. -/
theorem serveLines_set (b : Tables) (sender : Sender) {text : CStr} (h : SingleLine text) :
    b.serveLines sender (completeLines (ascii "SET " ++ text ++ [newline])) =
      b.execute sender (parseCommand (ascii "SET " ++ cutLine text)) := by
  have hfirst : ascii "SET " ++ cutLine text ≠ [] :=
    List.append_ne_nil_of_left_ne_nil (by decide) _
  rw [completeLines_set, Tables.serveLines, serveLines_of_blank _ _ h, Tables.serveLine,
    messageOf_set, if_neg hfirst]
  simp only [List.append_nil]

/-! ## What the broker reads of a `SET` line -/

/-- A `SET` line is a `SET` command if there are three items, and invalid otherwise. -/
theorem parseCommand_set (text : CStr) :
    parseCommand (ascii "SET " ++ text) =
      match scanWord 63 text with
      | none => .invalid
      | some (topic, rest) =>
        match scanUntil 799 newline (rest.dropWhile isspace) with
        | none => .invalid
        | some (payload, _) => .set topic payload := by
  have hword : IsWord 31 (ascii "SET") := by decide
  have hscan : scanMessage (ascii "SET " ++ text) = _ := scanMessage_word hword text
  rw [parseCommand, hscan]
  cases scanWord 63 text with
  | none => rfl
  | some found =>
    obtain ⟨topic, rest⟩ := found
    dsimp only
    cases scanUntil 799 newline (rest.dropWhile isspace) with
    | none => rfl
    | some read => rfl

/-- There is at most one item exactly if nothing is left behind the first. -/
theorem oneItem_iff (text : CStr) :
    OneItem text ↔
      ∀ word rest, scanWord 63 text = some (word, rest) → rest.dropWhile isspace = [] := by
  by_cases hnil : firstWord text = []
  · have hafter : afterWord text = [] := by
      rw [afterWord, dropWhile_isspace_of_firstWord hnil]
      rfl
    rw [scanWord_eq_none hnil]
    simp [OneItem, hnil, hafter]
  · rcases Nat.lt_or_ge 63 (firstWord text).length with hlong | hfits
    · refine iff_of_false (fun h => Nat.not_le_of_lt hlong h.1) fun h => ?_
      have hrest := h _ _ (scanWord_eq_take (by decide) hlong)
      rw [List.dropWhile_eq_nil_iff] at hrest
      -- The word goes on behind its first 63 bytes.
      have hpos : 0 < ((firstWord text).drop 63).length := by
        rw [List.length_drop]
        omega
      obtain ⟨b, hb⟩ := List.exists_mem_of_length_pos hpos
      have hspace := hrest b (List.mem_append_left _ hb)
      rw [not_isspace_firstWord (List.mem_of_mem_drop hb)] at hspace
      cases hspace
    · rw [scanWord_eq_firstWord hnil hfits, OneItem]
      simp [hfits]

/-- A `SET` line is invalid exactly if it holds no second item. -/
theorem parseCommand_set_invalid_iff {text : CStr} (hnewline : newline ∉ text) :
    parseCommand (ascii "SET " ++ text) = .invalid ↔ OneItem text := by
  rw [parseCommand_set, oneItem_iff]
  cases hscan : scanWord 63 text with
  | none => simp
  | some found =>
    obtain ⟨word, rest⟩ := found
    have hleft : (∀ w r, some (word, rest) = some (w, r) → r.dropWhile isspace = []) ↔
        rest.dropWhile isspace = [] := by
      refine ⟨fun h => h _ _ rfl, ?_⟩
      rintro h w r ⟨⟩
      exact h
    have hrest : newline ∉ rest.dropWhile isspace := by
      intro hmem
      obtain ⟨-, blanks, htext⟩ := isWord_of_scanWord hscan
      refine hnewline ?_
      rw [htext]
      have hmem := (List.dropWhile_sublist isspace).subset hmem
      exact List.mem_append_right _ (List.mem_append_right _ hmem)
    rw [hleft]
    dsimp only
    generalize rest.dropWhile isspace = body at hrest
    cases body with
    | nil => simp
    | cons b body =>
      have hb : b ≠ newline := fun h => hrest (h ▸ List.mem_cons_self)
      simp [scanUntil, hb]

theorem mem_cutLine {text : CStr} {b : UInt8} (h : b ∈ cutLine text) :
    b ≠ byte '\r' ∧ b ≠ newline := by
  simpa using List.mem_takeWhile_imp h

theorem newline_notMem_cutLine (text : CStr) : newline ∉ cutLine text :=
  fun h => (mem_cutLine h).2 rfl

/-- Neither a key nor a value that is read as it is ends the line. -/
theorem cutLine_eq_self (hkey : IsWord 63 key) (hvalue : PlainValue value) :
    cutLine (key ++ ascii " " ++ value) = key ++ ascii " " ++ value := by
  rw [cutLine, List.takeWhile_eq_self_iff]
  intro b hb
  rw [Bool.and_eq_true, bne_iff_ne, bne_iff_ne]
  simp only [List.mem_append] at hb
  rcases hb with (hb | hb) | hb
  · refine ⟨?_, ?_⟩
    · rintro rfl
      exact hkey.notMem (by decide) hb
    · rintro rfl
      exact hkey.notMem (by decide) hb
  · rw [List.mem_singleton.mp hb]
    decide
  · refine ⟨?_, ?_⟩
    · rintro rfl
      exact hvalue.return_value hb
    · rintro rfl
      exact hvalue.newline_value hb

/-- A key and a value that are read as they are stand on one line. -/
theorem singleLine_of_plain (hkey : IsWord 63 key) (hvalue : PlainValue value) :
    SingleLine (key ++ ascii " " ++ value) := by
  have hcut := cutLine_eq_self hkey hvalue
  have hnewline : newline ∉ key ++ ascii " " ++ value := hcut ▸ newline_notMem_cutLine _
  rw [SingleLine, List.splitOn_eq_singleton hnewline]
  exact fun _ h => absurd h List.not_mem_nil

/-- A `SET` line stores what was put into it, exactly if that is a key and a value that are read as
they are. -/
theorem parseCommand_set_eq_iff (hvalue : 1 ≤ value.length ∧ value.length ≤ 255) :
    parseCommand (ascii "SET " ++ cutLine (key ++ ascii " " ++ value)) = .set key value ↔
      IsWord 63 key ∧ PlainValue value := by
  constructor
  · intro h
    rw [parseCommand_set] at h
    split at h
    · cases h
    next topic rest hscan =>
      split at h
      · cases h
      next payload left huntil =>
        obtain ⟨rfl, rfl⟩ := Command.set.inj h
        obtain ⟨hword, blanks, htext⟩ := isWord_of_scanWord hscan
        obtain ⟨hne, -, hnewline, hrest⟩ := of_scanUntil huntil
        refine ⟨hword, ?_, ?_, hnewline⟩
        · intro b hb
          refine head?_dropWhile_isspace rest b ?_
          rw [hrest, List.head?_append_of_ne_nil _ hne]
          exact hb
        · intro hreturn
          have hmem : byte '\r' ∈ rest := by
            refine (List.dropWhile_sublist isspace).subset ?_
            rw [hrest]
            exact List.mem_append_left _ hreturn
          have hcut : byte '\r' ∈ cutLine (topic ++ ascii " " ++ payload) := by
            rw [htext]
            exact List.mem_append_right _ (List.mem_append_right _ hmem)
          exact (mem_cutLine hcut).1 rfl
  · rintro ⟨hword, hplain⟩
    have hset : IsWord 31 (ascii "SET") := by decide
    have hne : value ≠ [] := List.length_pos_iff.mp hvalue.1
    have htext : ascii "SET " ++ (key ++ ascii " " ++ value) =
        ascii "SET" ++ byte ' ' :: (key ++ byte ' ' :: value) := by
      rw [List.append_assoc]
      rfl
    rw [cutLine_eq_self hword hplain, htext, parseCommand, scanMessage_words hset hword hne
      (by omega) hplain.head?_value hplain.newline_value]
    rfl

/-! ## What the broker reads of a `GET` line -/

theorem parseCommand_get (hkey : IsWord 63 key) :
    parseCommand (ascii "GET " ++ key) = .get key [] := by
  have hword : IsWord 31 (ascii "GET") := by decide
  have hscan : scanMessage (ascii "GET " ++ key) = _ := scanMessage_word hword key
  have htopic : scanWord 63 (key ++ []) = some (key, []) :=
    hkey.scanWord_append fun _ h => by cases h
  rw [List.append_nil] at htopic
  rw [parseCommand, hscan, htopic]
  rfl

end AdMQ
