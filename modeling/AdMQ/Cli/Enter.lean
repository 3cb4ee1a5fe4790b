import AdMQ.Cli.Layout

/-!
# What Enter depends on

Enter looks at the byte behind the line. Typing and erasing leave a terminator there, but
a line of the history that takes the place of a longer one leaves the bytes of the longer
one behind it, and what is typed next moves towards them. A backslash among these bytes
then keeps Enter from ending a line that does not show any. Which keys bring it there can
be told from the lines that were visible in between.
-/

namespace AdMQ

open Core

/-- A printable byte, backspace or an arrow. -/
def Key.IsEditing : Key → Prop
  | .char c => IsTyped c ∨ c = 127
  | .unknown => False
  | .up | .down | .left | .right => True

instance : (k : Key) → Decidable k.IsEditing
  | .char c => inferInstanceAs (Decidable (IsTyped c ∨ c = 127))
  | .unknown => .isFalse id
  | .up | .down | .left | .right => .isTrue trivial

/-- A key that edits the line and leaves at most 1022 bytes in it. -/
def Edits (p : Prompt) (k : Key) : Prop :=
  k.IsEditing ∧ ∀ p' ∈ pressKey p k, p'.line.length ≤ 1022

instance (p : Prompt) (k : Key) : Decidable (Edits p k) :=
  inferInstanceAs (Decidable (k.IsEditing ∧ ∀ p' ∈ pressKey p k, p'.line.length ≤ 1022))

/-- The prompt to which a sequence of such keys leads from a new line. -/
def edited (h : History) (keys : List Key) : Option Prompt :=
  run (guarded pressKey Edits) ⟨h, .fresh⟩ keys

/-- The visible text. -/
def Prompt.visible (p : Prompt) : CStr := p.line.buffer.take p.line.length

/-- Enter returns the visible text. -/
def Prompt.Submits (p : Prompt) (c : UInt8) : Prop :=
  ∃ p', p.press (.char c) = some (p', some p.visible)

/-- Enter goes on with the line. -/
def Prompt.Continues (p : Prompt) (c : UInt8) : Prop := ∃ p', p.press (.char c) = some (p', none)

/-- Enter returns the line at both prompts or goes on at both. -/
def EnterAgrees (p q : Prompt) : Prop :=
  ∀ c, c = newline ∨ c = byte '\r' → p.Submits c ∧ q.Submits c ∨ p.Continues c ∧ q.Continues c

/-- After the key the line has at most `n` bytes, and fewer if the key is an arrow that shows a
line of the history. -/
def EndsBy (n : Nat) (p : Prompt) (k : Key) : Prop :=
  ∀ p' ∈ pressKey p k,
    p'.line.length ≤ n ∧ (p'.history.viewIdx = p.history.viewIdx ∨ p'.line.length ≠ n)

instance (n : Nat) (p : Prompt) (k : Key) : Decidable (EndsBy n p k) :=
  inferInstanceAs (Decidable (∀ p' ∈ pressKey p k,
    p'.line.length ≤ n ∧ (p'.history.viewIdx = p.history.viewIdx ∨ p'.line.length ≠ n)))

/-- The visible text had a backslash at index `n`, the next key brought up a line that ends before
it, and since then no line went beyond `n` and no arrow showed one that ends there. -/
def HidesBackslash (h : History) (keys : List Key) (n : Nat) : Prop :=
  ∃ front k back p p' q, keys = front ++ k :: back ∧ edited h front = some p ∧
    p.visible[n]? = some backslash ∧ edited h (front ++ [k]) = some p' ∧ p'.line.length < n ∧
    run (guarded pressKey (EndsBy n)) p' back = some q

/-! ## One more key -/

section Keys

variable {h : History} {keys : List Key} {k : Key} {p p' : Prompt} {n : Nat}

theorem edited_concat (hp : edited h keys = some p) :
    edited h (keys ++ [k]) = some p' ↔ Edits p k ∧ pressKey p k = some p' := by
  rw [edited, run_concat_eq_some, ← guarded_eq_some]
  constructor
  · rintro ⟨p₁, hp₁, hk⟩
    obtain rfl : p = p₁ := Option.some.inj (hp.symm.trans hp₁)
    exact hk
  · exact fun hk => ⟨p, hp, hk⟩

/-- Whichever condition the later keys are held to, they lead to the same prompt. -/
theorem eq_of_run_endsBy {front back : List Key} {p₁ q : Prompt}
    (hp : edited h (front ++ k :: back) = some p) (hnext : edited h (front ++ [k]) = some p₁)
    (hback : run (guarded pressKey (EndsBy n)) p₁ back = some q) : p = q := by
  rw [edited, ← List.singleton_append, ← List.append_assoc, run_append_of_eq hnext] at hp
  exact Option.some.inj ((run_of_run_guarded hp).symm.trans (run_of_run_guarded hback))

/-- The backslash was hidden before and is kept, or the key hides it. -/
theorem hidesBackslash_concat (hp : edited h keys = some p)
    (hp' : edited h (keys ++ [k]) = some p') : HidesBackslash h (keys ++ [k]) n ↔
      HidesBackslash h keys n ∧ EndsBy n p k ∨
        p.visible[n]? = some backslash ∧ p'.line.length < n := by
  constructor
  · rintro ⟨front, k₁, back, p₁, p₂, q, hkeys, hfront, hbyte, hnext, hlt, hback⟩
    rcases List.eq_nil_or_concat' back with rfl | ⟨back, k₂, rfl⟩
    · obtain ⟨rfl, hk⟩ := List.append_inj' hkeys rfl
      obtain rfl := List.singleton_inj.mp hk
      obtain rfl := Option.some.inj (hp.symm.trans hfront)
      obtain rfl := Option.some.inj (hp'.symm.trans hnext)
      exact Or.inr ⟨hbyte, hlt⟩
    · rw [← List.cons_append, ← List.append_assoc] at hkeys
      obtain ⟨rfl, hk⟩ := List.append_inj' hkeys rfl
      obtain rfl := List.singleton_inj.mp hk
      obtain ⟨p₃, hback, hlast⟩ := run_concat_eq_some.mp hback
      obtain rfl := eq_of_run_endsBy hp hnext hback
      exact Or.inl ⟨⟨front, k₁, back, p₁, p₂, p, rfl, hfront, hbyte, hnext, hlt, hback⟩,
        (guarded_eq_some.mp hlast).1⟩
  · rintro (⟨⟨front, k₁, back, p₁, p₂, q, rfl, hfront, hbyte, hnext, hlt, hback⟩, hends⟩ |
      ⟨hbyte, hlt⟩)
    · obtain rfl := eq_of_run_endsBy hp hnext hback
      have hstep := ((edited_concat hp).mp hp').2
      refine ⟨front, k₁, back ++ [k], p₁, p₂, p', by simp, hfront, hbyte, hnext, hlt, ?_⟩
      exact run_concat_eq_some.mpr ⟨p, hback, guarded_eq_some.mpr ⟨hends, hstep⟩⟩
    · exact ⟨keys, k, [], p, p', p', rfl, hp, hbyte, hp', hlt, rfl⟩

theorem not_hidesBackslash_nil : ¬ HidesBackslash h [] n := by
  rintro ⟨front, k, back, _, _, _, hkeys, -⟩
  exact absurd hkeys (by simp)

/-- A hidden backslash is not in the line. -/
theorem HidesBackslash.length_le (hp : edited h keys = some p) (hhides : HidesBackslash h keys n) :
    p.line.length ≤ n := by
  rcases List.eq_nil_or_concat' keys with rfl | ⟨keys, k, rfl⟩
  · exact absurd hhides not_hidesBackslash_nil
  · obtain ⟨p₁, hp₁, -⟩ := run_concat_eq_some.mp hp
    rcases (hidesBackslash_concat hp₁ hp).mp hhides with ⟨-, hends⟩ | ⟨-, hlt⟩
    · exact (hends p ((edited_concat hp₁).mp hp).2).1
    · exact Nat.le_of_lt hlt

end Keys

/-! ## The bytes behind the line -/

namespace Layout

variable {z z' : Layout} {h : History}

/-- The buffer. -/
def bytes (z : Layout) : List UInt8 := z.text ++ z.behind

theorem visible_prompt (z : Layout) : z.prompt.visible = z.text := by
  have hlen : z.left.length + z.right.length = z.text.length := List.length_append.symm
  change (z.text ++ z.behind).take (z.left.length + z.right.length) = z.text
  rw [hlen, List.take_left]

theorem length_prompt (z : Layout) : z.prompt.line.length = z.text.length :=
  List.length_append.symm

theorem getElem?_bytes_of_lt (z : Layout) {n : Nat} (hn : n < z.text.length) :
    z.bytes[n]? = z.text[n]? := List.getElem?_append_left hn

/-- What a key does to the backslashes from the end of the new line on: an edit keeps those behind
the old line, and a line of the history keeps all those behind its terminator. -/
inductive Turns (z z' : Layout) : Prop where
  | edit (hview : z'.history.viewIdx = z.history.viewIdx)
      (hlen : z.text.length ≤ z'.text.length + 1)
      (hbytes : ∀ n, z'.text.length ≤ n → (z'.bytes[n]? = some backslash ↔
        z.text.length ≤ n ∧ z.bytes[n]? = some backslash))
  | view (hview : z'.history.viewIdx ≠ z.history.viewIdx)
      (hbytes : ∀ n, z'.text.length ≤ n → (z'.bytes[n]? = some backslash ↔
        z'.text.length < n ∧ z.bytes[n]? = some backslash))

theorem some_zero_ne : some (0 : UInt8) ≠ some backslash := by decide

namespace Turns

/-- A key that keeps the line, and what is behind it. -/
theorem of_eq (hview : z'.history = z.history) (htext : z'.text = z.text)
    (hbehind : z'.behind = z.behind) : z.Turns z' := by
  refine .edit (by rw [hview]) (by rw [htext]; omega) fun n hn => ?_
  rw [htext] at hn
  rw [bytes, htext, hbehind]
  exact (and_iff_right hn).symm

theorem moveLeft (z : Layout) : z.Turns z.moveLeft := by
  refine of_eq z.history_moveLeft ?_ (by rw [Layout.moveLeft]; split <;> rfl)
  rw [text_eq, line_moveLeft, Zipper.text_moveLeft]
  rfl

theorem moveRight (z : Layout) : z.Turns z.moveRight := by
  refine of_eq z.history_moveRight ?_ (by rw [Layout.moveRight]; split <;> rfl)
  rw [text_eq, line_moveRight, Zipper.text_moveRight]
  rfl

/-- A typed byte moves the end of the line over one byte. -/
theorem typed (z : Layout) (c : UInt8) : z.Turns (z.typed [c]) := by
  have hlen : (z.typed [c]).text.length = z.text.length + 1 := by
    simp only [Layout.typed, text, List.length_append, List.length_singleton]
    omega
  refine .edit rfl (by omega) fun n hn => ?_
  rw [hlen] at hn
  have hbyte : (z.typed [c]).bytes[n]? = z.bytes[n]? := by
    rw [bytes, bytes, List.getElem?_append_right (by omega), List.getElem?_append_right (by omega),
      hlen, Layout.typed, List.length_singleton, List.getElem?_drop]
    congr 1
    omega
  rw [hbyte]
  exact (and_iff_right (by omega)).symm

/-- A terminator takes the place of the last byte. -/
theorem backspace (z : Layout) : z.Turns z.backspace := by
  by_cases hnil : z.left = []
  · rw [Layout.backspace, if_pos hnil]
    exact of_eq rfl rfl rfl
  · have hpos := List.length_pos_of_ne_nil hnil
    have hlen : z.backspace.text.length + 1 = z.text.length := by
      simp only [Layout.backspace, if_neg hnil, text, List.length_append, List.length_dropLast]
      omega
    refine .edit (by rw [history_backspace]) (by omega) fun n hn => ?_
    rw [bytes, List.getElem?_append_right hn, Layout.backspace, if_neg hnil]
    rw [Layout.backspace, if_neg hnil] at hn hlen
    rcases Nat.lt_or_ge n z.text.length with hlt | hge
    · obtain rfl := Nat.le_antisymm (by omega) hn
      rw [Nat.sub_self]
      exact iff_of_false some_zero_ne fun hboth => by omega
    · rw [bytes, List.getElem?_append_right hge, and_iff_right hge]
      obtain ⟨d, rfl⟩ := Nat.exists_eq_add_of_le hge
      rw [show z.text.length + d - _ = d + 1 by omega, Nat.add_sub_cancel_left]
      rfl

/-- The terminator of a line of the history is the only byte written behind it. -/
theorem shown (z : Layout) {i : Nat} (hi : i ≠ z.history.viewIdx) : z.Turns (z.view i) := by
  refine .view hi fun n hn => ?_
  have htext : (z.view i).text = z.history.lineAt i := List.append_nil _
  rw [bytes, List.getElem?_append_right hn]
  rw [htext] at hn ⊢
  obtain ⟨d, rfl⟩ := Nat.exists_eq_add_of_le hn
  rw [Nat.add_sub_cancel_left]
  cases d with
  | zero => exact iff_of_false some_zero_ne fun hboth => by omega
  | succ d =>
    rw [and_iff_right (by omega), bytes]
    change ((z.text ++ z.behind).drop ((z.history.lineAt i).length + 1))[d]? = _ ↔ _
    rw [List.getElem?_drop, Nat.add_right_comm, Nat.add_assoc]

end Turns

/-- What a key of a sequence can do. -/
inductive Edit (z : Layout) : Layout → Prop where
  | keep : Edit z z
  | moveLeft : Edit z z.moveLeft
  | moveRight : Edit z z.moveRight
  | backspace : Edit z z.backspace
  | typed {c : UInt8} (hc : IsTyped c) : Edit z (z.typed [c])
  | view {i : Nat} (hi : i ≠ z.history.viewIdx) : Edit z (z.view i)

theorem edit_of_press (hz : z.Valid) (hlen : z.text.length ≤ 1022) {k : Key} (hk : k.IsEditing)
    {returned : Option CStr} (hpress : z.press k = some (z', returned)) : z.Edit z' := by
  cases k with
  | up =>
    rw [press, hz.up_eq] at hpress
    obtain ⟨rfl, -⟩ := Prod.mk.inj (Option.some.inj hpress)
    split
    · exact .view (by omega)
    · exact .keep
  | down =>
    rw [press, z.down_eq] at hpress
    obtain ⟨rfl, -⟩ := Prod.mk.inj (Option.some.inj hpress)
    split
    · exact .view (by omega)
    · exact .keep
  | left =>
    obtain ⟨rfl, -⟩ := Prod.mk.inj (Option.some.inj hpress)
    exact .moveLeft
  | right =>
    obtain ⟨rfl, -⟩ := Prod.mk.inj (Option.some.inj hpress)
    exact .moveRight
  | unknown => exact absurd hk id
  | char c =>
    rcases hk with hc | rfl
    · have hroom := hz.behind_ne_nil (Nat.lt_of_le_of_lt hlen (by decide))
      rw [press_typed z hc, insert_eq_typed c hroom] at hpress
      obtain ⟨rfl, -⟩ := Prod.mk.inj (Option.some.inj hpress)
      exact .typed hc
    · obtain ⟨rfl, -⟩ := Prod.mk.inj (Option.some.inj hpress)
      exact .backspace

theorem Edit.turns (hedit : z.Edit z') : z.Turns z' := by
  cases hedit with
  | keep => exact .of_eq rfl rfl rfl
  | moveLeft => exact .moveLeft z
  | moveRight => exact .moveRight z
  | backspace => exact .backspace z
  | typed hc => exact .typed z _
  | view hi => exact .shown z hi

/-- No key of a sequence puts a terminator into the line. -/
theorem Edit.nul_notMem (hedit : z.Edit z') (hz : z.Valid) (hnul : 0 ∉ z.text) : 0 ∉ z'.text := by
  cases hedit with
  | keep => exact hnul
  | moveLeft =>
    rw [text_eq, line_moveLeft, Zipper.text_moveLeft]
    exact hnul
  | moveRight =>
    rw [text_eq, line_moveRight, Zipper.text_moveRight]
    exact hnul
  | backspace =>
    rw [text_eq, line_backspace]
    exact fun hmem => hnul (Zipper.mem_text_of_backspace _ hmem)
  | typed hc =>
    intro hmem
    rcases (Zipper.mem_text_insert z.line).mp hmem with hzero | hmem
    · exact hc.1 hzero.symm
    · exact hnul hmem
  | @view i hi =>
    rw [show (z.view i).text = z.history.lineAt i from List.append_nil _]
    exact hz.history.nul_notMem_lineAt i

/-- The parts of the buffer after a sequence of keys: the backslashes from the end of the line on
are the hidden ones. -/
structure Traced (h : History) (keys : List Key) (z : Layout) : Prop where
  valid : z.Valid
  nul_notMem : 0 ∉ z.text
  length_le : z.text.length ≤ 1022
  hidden : ∀ n, z.text.length ≤ n → (z.bytes[n]? = some backslash ↔ HidesBackslash h keys n)

namespace Traced

variable {keys : List Key}

theorem start (hvalid : h.Valid) : (fresh h).Traced h [] := by
  refine ⟨valid_fresh hvalid, List.not_mem_nil, Nat.zero_le _, fun n _ => ?_⟩
  refine iff_of_false (fun hbyte => ?_) not_hidesBackslash_nil
  have hzero := List.eq_of_mem_replicate (List.mem_of_getElem? hbyte)
  exact absurd hzero (by decide)

/-- The rule for one more key, from what it does to the buffer. -/
theorem concat (hz : z.Traced h keys) {k : Key} (hp : edited h keys = some z.prompt)
    (hp' : edited h (keys ++ [k]) = some z'.prompt) (hvalid : z'.Valid) (hnul : 0 ∉ z'.text)
    (hturns : z.Turns z') : z'.Traced h (keys ++ [k]) := by
  obtain ⟨hedits, hstep⟩ := (edited_concat hp).mp hp'
  have hends : ∀ n, EndsBy n z.prompt k ↔ z'.text.length ≤ n ∧
      (z'.history.viewIdx = z.history.viewIdx ∨ z'.text.length ≠ n) := by
    intro n
    rw [EndsBy, hstep]
    simp only [Option.mem_some_iff, forall_eq', length_prompt]
    rfl
  refine ⟨hvalid, hnul, by rw [← length_prompt]; exact hedits.2 _ hstep, fun n hn => ?_⟩
  rw [hidesBackslash_concat hp hp', hends, visible_prompt, length_prompt]
  have hle : HidesBackslash h keys n → z.text.length ≤ n := by
    intro hhides
    rw [← length_prompt]
    exact hhides.length_le hp
  -- A byte of the old line is visible; behind it the sequence so far tells.
  have hold : z.bytes[n]? = some backslash ↔
      HidesBackslash h keys n ∨ z.text[n]? = some backslash := by
    rcases Nat.lt_or_ge n z.text.length with hlt | hge
    · rw [z.getElem?_bytes_of_lt hlt]
      exact (or_iff_right fun hhides => Nat.not_le_of_lt hlt (hle hhides)).symm
    · rw [hz.hidden n hge, List.getElem?_eq_none hge]
      exact (or_iff_left (by decide)).symm
  cases hturns with
  | edit hview hlen hbytes =>
    have hvisible : ¬ (z.text[n]? = some backslash ∧ z'.text.length < n) := by
      rintro ⟨hbyte, hlt⟩
      have hin := (List.getElem?_eq_some_iff.mp hbyte).1
      omega
    have hkept : z'.text.length ≤ n ∧
        (z'.history.viewIdx = z.history.viewIdx ∨ z'.text.length ≠ n) := ⟨hn, Or.inl hview⟩
    rw [hbytes n hn, or_iff_left hvisible, and_iff_left hkept]
    constructor
    · rintro ⟨hge, hbyte⟩
      exact (hz.hidden n hge).mp hbyte
    · intro hhides
      exact ⟨hle hhides, (hz.hidden n (hle hhides)).mpr hhides⟩
  | view hview hbytes =>
    have hbehind : (z'.text.length ≤ n ∧
        (z'.history.viewIdx = z.history.viewIdx ∨ z'.text.length ≠ n)) ↔ z'.text.length < n := by
      rw [or_iff_right hview]
      omega
    rw [hbytes n hn, hold, hbehind, and_comm, or_and_right]

end Traced

/-- Every sequence of keys can be traced. -/
theorem exists_traced (hvalid : h.Valid) {keys : List Key} {p : Prompt}
    (hp : edited h keys = some p) : ∃ z : Layout, z.Traced h keys ∧ p = z.prompt := by
  induction keys using List.reverseRecOn generalizing p with
  | nil => exact ⟨fresh h, .start hvalid, (Option.some.inj hp).symm⟩
  | append_singleton keys k ih =>
    obtain ⟨p₁, hp₁, -⟩ := run_concat_eq_some.mp hp
    obtain ⟨z, hz, rfl⟩ := ih hp₁
    obtain ⟨hedits, hstep⟩ := (edited_concat hp₁).mp hp
    rw [pressKey, press_prompt hz.valid, Option.map_map] at hstep
    obtain ⟨⟨z', returned⟩, hpress, rfl⟩ := Option.map_eq_some_iff.mp hstep
    have hedit := edit_of_press hz.valid hz.length_le hedits.1 hpress
    have hnul := hedit.nul_notMem hz.valid hz.nul_notMem
    exact ⟨z', hz.concat hp₁ hp (hz.valid.press hpress) hnul hedit.turns, rfl⟩

namespace Traced

variable {keys : List Key} {c : UInt8}

/-- Enter goes on with the line if a backslash is hidden right behind it, and returns it if not. -/
theorem enter (hz : z.Traced h keys) (hc : c = newline ∨ c = byte '\r') :
    (HidesBackslash h keys z.text.length → z.prompt.Continues c) ∧
      (¬ HidesBackslash h keys z.text.length → z.prompt.Submits c) := by
  have hroom := hz.valid.behind_ne_nil (Nat.lt_of_le_of_lt hz.length_le (by decide))
  obtain ⟨b, behind, hbehind⟩ := List.exists_cons_of_ne_nil hroom
  have hbyte : z.bytes[z.text.length]? = some b := by
    rw [bytes, List.getElem?_append_right (Nat.le_refl _), Nat.sub_self, hbehind]
    rfl
  have hend : c ≠ 255 := by
    rintro rfl
    exact absurd hc (by decide)
  have henter : z.press (.char c) = z.enter c := by
    rw [press, char, if_neg hend, if_pos hc]
  rw [← hz.hidden _ (Nat.le_refl _), hbyte, Option.some.injEq]
  constructor
  · rintro rfl
    refine ⟨(z.typed [c]).prompt, ?_⟩
    rw [press_prompt hz.valid, henter, Layout.enter, hbehind]
    simp only [if_true]
    rw [insert_eq_typed c hroom]
    rfl
  · intro hne
    refine ⟨(z.submit z.text).1.prompt, ?_⟩
    rw [press_prompt hz.valid, henter, Layout.enter, hbehind, visible_prompt]
    simp only [if_neg hne]
    rw [cstr_eq_self hz.nul_notMem]
    rfl

end Traced

end Layout

/-- From the end of the line on, the hidden backslashes are those of the buffer. -/
theorem hidesBackslash_iff {h : History} (hvalid : h.Valid) {keys : List Key} {p : Prompt}
    (hp : edited h keys = some p) {n : Nat} (hn : p.line.length ≤ n) :
    HidesBackslash h keys n ↔ p.line.buffer[n]? = some backslash := by
  obtain ⟨z, hz, rfl⟩ := Layout.exists_traced hvalid hp
  rw [Layout.length_prompt] at hn
  exact (hz.hidden n hn).symm

theorem not_submits_of_continues {p : Prompt} {c : UInt8} (h : p.Continues c) : ¬ p.Submits c := by
  rintro ⟨p', hp'⟩
  obtain ⟨p'', hp''⟩ := h
  rw [hp''] at hp'
  exact absurd (Option.some.inj hp') (by simp)

/-- After two key sequences with the same visible text Enter has the same effect exactly if both
have hidden a backslash right behind the text or neither has. -/
theorem enterAgrees_iff {h : History} (hvalid : h.Valid) {keys keys' : List Key} {p q : Prompt}
    (hp : edited h keys = some p) (hq : edited h keys' = some q)
    (hvisible : p.visible = q.visible) :
    EnterAgrees p q ↔
      (HidesBackslash h keys p.visible.length ↔ HidesBackslash h keys' p.visible.length) := by
  obtain ⟨z, hz, rfl⟩ := Layout.exists_traced hvalid hp
  obtain ⟨w, hw, rfl⟩ := Layout.exists_traced hvalid hq
  rw [Layout.visible_prompt, Layout.visible_prompt] at hvisible
  rw [Layout.visible_prompt]
  have henter := fun c (hc : c = newline ∨ c = byte '\r') => hz.enter hc
  have henter' := fun c (hc : c = newline ∨ c = byte '\r') => hw.enter hc
  rw [← hvisible] at henter'
  constructor
  · intro hagrees
    obtain ⟨hgo, hend⟩ := henter newline (Or.inl rfl)
    obtain ⟨hgo', hend'⟩ := henter' newline (Or.inl rfl)
    rcases hagrees newline (Or.inl rfl) with ⟨hboth, hboth'⟩ | ⟨hboth, hboth'⟩
    · exact iff_of_false (fun hhides => not_submits_of_continues (hgo hhides) hboth)
        fun hhides => not_submits_of_continues (hgo' hhides) hboth'
    · refine iff_of_true ?_ ?_
      · by_contra hhides
        exact not_submits_of_continues hboth (hend hhides)
      · by_contra hhides
        exact not_submits_of_continues hboth' (hend' hhides)
  · intro hiff c hc
    by_cases hhides : HidesBackslash h keys z.text.length
    · exact Or.inr ⟨(henter c hc).1 hhides, (henter' c hc).1 (hiff.mp hhides)⟩
    · exact Or.inl ⟨(henter c hc).2 hhides, (henter' c hc).2 fun h' => hhides (hiff.mpr h')⟩

/-- The history after the line `x`. -/
def oneLine : History := addHistory .empty (ascii "x")

theorem oneLine_valid : oneLine.Valid := History.empty_valid.add (by decide)

/-- The line `x` is brought up over a longer line with a backslash and extended. -/
def overKeys : List Key := (ascii "abc\\").map .char ++ [.up, .char (byte 'y')]

/-- The backslash is one byte further behind, so that Enter returns `xy` as if it had been typed. -/
theorem enterAgrees_iff_overKeys : ∃ p q, edited oneLine overKeys = some p ∧
    edited oneLine ((ascii "xy").map .char) = some q ∧ p.visible = ascii "xy" ∧
    q.visible = ascii "xy" ∧ EnterAgrees p q := by
  have hover : (edited oneLine overKeys).map (fun p => (p.visible, p.line.length,
      p.line.buffer[2]?)) = some (ascii "xy", 2, some (byte 'c')) := by decide +kernel
  have htyped : (edited oneLine ((ascii "xy").map .char)).map (fun p => (p.visible,
      p.line.length, p.line.buffer[2]?)) = some (ascii "xy", 2, some 0) := by decide +kernel
  obtain ⟨p, hp, hparts⟩ := Option.map_eq_some_iff.mp hover
  obtain ⟨q, hq, hparts'⟩ := Option.map_eq_some_iff.mp htyped
  simp only [Prod.mk.injEq] at hparts hparts'
  obtain ⟨hpv, hplen, hpbyte⟩ := hparts
  obtain ⟨hqv, hqlen, hqbyte⟩ := hparts'
  refine ⟨p, q, hp, hq, hpv, hqv, ?_⟩
  refine (enterAgrees_iff oneLine_valid hp hq (hpv.trans hqv.symm)).mpr ?_
  rw [hpv, show (ascii "xy").length = 2 from rfl,
    hidesBackslash_iff oneLine_valid hp (Nat.le_of_eq hplen), hpbyte,
    hidesBackslash_iff oneLine_valid hq (Nat.le_of_eq hqlen), hqbyte]
  decide

/-- With one more byte both prompts show `xyz`; Enter returns it at one of them only. -/
theorem enter_differs : ∃ p q, edited oneLine (overKeys ++ [.char (byte 'z')]) = some p ∧
    edited oneLine ((ascii "xyz").map .char) = some q ∧ p.visible = ascii "xyz" ∧
    q.visible = ascii "xyz" ∧ p.Continues newline ∧ q.Submits newline := by
  have hover : (edited oneLine (overKeys ++ [.char (byte 'z')])).map
      (fun p => (p.visible, (p.press (.char newline)).map Prod.snd)) =
        some (ascii "xyz", some none) := by decide +kernel
  have htyped : (edited oneLine ((ascii "xyz").map .char)).map
      (fun p => (p.visible, (p.press (.char newline)).map Prod.snd)) =
        some (ascii "xyz", some (some (ascii "xyz"))) := by decide +kernel
  obtain ⟨p, hp, hpair⟩ := Option.map_eq_some_iff.mp hover
  obtain ⟨q, hq, hpair'⟩ := Option.map_eq_some_iff.mp htyped
  obtain ⟨hpv, hpe⟩ := Prod.mk.inj hpair
  obtain ⟨hqv, hqe⟩ := Prod.mk.inj hpair'
  obtain ⟨⟨p', _⟩, hpp, rfl⟩ := Option.map_eq_some_iff.mp hpe
  obtain ⟨⟨q', _⟩, hqq, rfl⟩ := Option.map_eq_some_iff.mp hqe
  exact ⟨p, q, hp, hq, hpv, hqv, ⟨p', hpp⟩, ⟨q', hqv.symm ▸ hqq⟩⟩

end AdMQ
