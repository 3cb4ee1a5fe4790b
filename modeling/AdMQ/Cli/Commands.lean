import AdMQ.Agent.Lexical
import AdMQ.Cli.Layout

/-!
# Commands of the administration prompt

The line that `get_input` returns is cut into tokens. PUBLISH and SET join the tokens
behind their names again, one `strcat` after the other, into arrays of 800 and 256
bytes; names are copied into smaller arrays. Nothing bounds the line, nor the joined
text, by the sizes of the arrays.
-/

namespace AdMQ

open Core

/-- The arrays of `admin_cli_thread` that are not initialised. -/
structure AdminStack where
  topic : CharArray 63
  targetHost : CharArray 127
  key : CharArray 63

/-- What the CLI does with a line. -/
inductive AdminCommand where
  | nothing
  | status
  | publish (topic : CharArray 63) (payload : List UInt8)
  | set (targetHost : CharArray 127) (key : CharArray 63) (value : List UInt8)
  | get (targetHost : CharArray 127) (key : CharArray 63)
  | subscribe (targetHost : CharArray 127) (topic : CharArray 63)
  | unsubscribe (targetHost : CharArray 127) (topic : CharArray 63)
  | exit
  | invalid

/-- The loop that joins tokens with blanks between them; `none` if a write falls outside. -/
def joinTokens (buffer : List UInt8) : List CStr → Option (List UInt8)
  | [] => some buffer
  | [token] => strcat buffer token
  | token :: next :: rest => do
    let buffer ← strcat buffer token
    let buffer ← strcat buffer (ascii " ")
    joinTokens buffer (next :: rest)

/-- An array that is initialised with zeros. -/
def zeros (size : Nat) : List UInt8 := List.replicate size 0

/-- The branches of `admin_cli_thread`; `none` if a write falls outside of an array. -/
def adminCommand (stack : AdminStack) (argv : List CStr) : Option AdminCommand :=
  let arg (i : Nat) := argv.getD i []
  if argv.length = 0 then some .nothing
  else if arg 0 = ascii "STATUS" then some .status
  else if arg 0 = ascii "PUBLISH" ∧ 3 ≤ argv.length then
    (joinTokens (zeros 800) (argv.drop 2)).map fun payload =>
      .publish (stack.topic.copy (arg 1)) payload
  else if arg 0 = ascii "SET" ∧ 4 ≤ argv.length then
    (joinTokens (zeros 256) (argv.drop 3)).map fun value =>
      .set (stack.targetHost.copy (arg 1)) (stack.key.copy (arg 2)) value
  else if arg 0 = ascii "GET" ∧ argv.length = 3 then
    some (.get (stack.targetHost.copy (arg 1)) (stack.key.copy (arg 2)))
  else if arg 0 = ascii "SUBSCRIBE" ∧ argv.length = 3 then
    some (.subscribe (stack.targetHost.copy (arg 1)) ((CharArray.filled 63 0).copy (arg 2)))
  else if arg 0 = ascii "UNSUBSCRIBE" ∧ argv.length = 3 then
    some (.unsubscribe (stack.targetHost.copy (arg 1)) ((CharArray.filled 63 0).copy (arg 2)))
  else if arg 0 = ascii "EXIT" then some .exit
  else some .invalid

/-! ## Joining tokens -/

/-- The tokens with blanks between them. -/
def joined (tokens : List CStr) : CStr := (ascii " ").intercalate tokens

theorem joined_cons_cons (token next : CStr) (rest : List CStr) :
    joined (token :: next :: rest) = token ++ ascii " " ++ joined (next :: rest) := by
  rw [joined, List.intercalate_cons_cons, joined, List.append_assoc]

/-- A string is appended to one that is followed by zeros, if there are enough of them. -/
theorem strcat_zeros {s : CStr} (hs : 0 ∉ s) (n : Nat) (src : CStr) :
    strcat (s ++ zeros (n + 1)) src =
      if src.length ≤ n then some (s ++ src ++ zeros (n - src.length + 1)) else none := by
  have hzero : zeros (n + 1) = 0 :: zeros n := rfl
  have hmem : 0 ∈ s ++ zeros (n + 1) :=
    List.mem_append_right _ (by rw [hzero]; exact List.mem_cons_self ..)
  have hstr : cstr (s ++ zeros (n + 1)) = s := by
    rw [hzero, cstr_append_zero, cstr_eq_self hs]
  rw [strcat, if_pos hmem, hstr]
  by_cases hroom : src.length ≤ n
  · have hdrop : (s ++ zeros (n + 1)).drop (s.length + (src ++ [0]).length) =
        zeros (n - src.length) := by
      rw [List.drop_length_add_append, zeros, List.drop_replicate, List.length_append,
        List.length_singleton]
      congr 1
      omega
    rw [if_pos hroom, memcpy_eq_some (by simp [zeros]; omega), overwrite, List.take_left, hdrop]
    simp [zeros, List.replicate_succ]
  · rw [if_neg hroom, memcpy, if_neg (by simp [zeros]; omega)]

/-- Joining succeeds exactly if the joined text leaves room for its terminator. -/
theorem joinTokens_zeros {tokens : List CStr} (htokens : ∀ t ∈ tokens, 0 ∉ t) {s : CStr}
    (hs : 0 ∉ s) (n : Nat) : joinTokens (s ++ zeros (n + 1)) tokens =
      if (joined tokens).length ≤ n then
        some (s ++ joined tokens ++ zeros (n - (joined tokens).length + 1))
      else none := by
  induction tokens generalizing s n with
  | nil => simp [joinTokens, joined]
  | cons token rest ih =>
    rw [List.forall_mem_cons] at htokens
    cases rest with
    | nil =>
      rw [joinTokens, strcat_zeros hs]
      simp [joined]
    | cons next rest =>
      have htoken : 0 ∉ s ++ token := by simp [hs, htokens.1]
      have hblank : 0 ∉ s ++ token ++ ascii " " := by
        rw [List.mem_append, not_or]
        exact ⟨htoken, by decide⟩
      have hone : (ascii " ").length = 1 := rfl
      have hlen : (joined (token :: next :: rest)).length =
          token.length + 1 + (joined (next :: rest)).length := by
        rw [joined_cons_cons, List.length_append, List.length_append, hone]
      rw [joinTokens, strcat_zeros hs]
      by_cases hfits : token.length + 1 ≤ n
      · have hn : n - token.length - 1 = n - (token.length + 1) := by omega
        rw [if_pos (by omega)]
        simp only [Option.bind_eq_bind, Option.bind_some]
        rw [strcat_zeros htoken, hone, if_pos (by omega), Option.bind_some,
          ih htokens.2 hblank, hn, hlen]
        by_cases hrest : (joined (next :: rest)).length ≤ n - (token.length + 1)
        · have hleft : n - (token.length + 1) - (joined (next :: rest)).length =
              n - (token.length + 1 + (joined (next :: rest)).length) := by omega
          rw [if_pos hrest, if_pos (by omega), hleft, joined_cons_cons]
          simp only [List.append_assoc]
        · rw [if_neg hrest, if_neg (by omega)]
      · rw [if_neg (show ¬ (joined (token :: next :: rest)).length ≤ n by omega)]
        by_cases htok : token.length ≤ n
        · rw [if_pos htok]
          simp only [Option.bind_eq_bind, Option.bind_some]
          rw [strcat_zeros htoken, hone, if_neg (by omega), Option.bind_none]
        · rw [if_neg htok]
          rfl

/-- In an array of zeros. -/
theorem joinTokens_isSome {tokens : List CStr} (htokens : ∀ t ∈ tokens, 0 ∉ t) (n : Nat) :
    (joinTokens (zeros (n + 1)) tokens).isSome = true ↔ (joined tokens).length ≤ n := by
  have h := joinTokens_zeros htokens List.not_mem_nil n
  rw [List.nil_append] at h
  rw [h]
  split <;> simp [*]

/-- The tokens hold no bytes that the line does not hold. -/
theorem mem_of_mem_token {line token : CStr} {argv : List CStr}
    (h : tokenizeCommand line = some argv) (htoken : token ∈ argv) {b : UInt8} (hb : b ∈ token) :
    b ∈ line := by
  have hkept (r : Reading) (xs : CStr) : (r.kept xs).Sublist xs := by
    induction xs generalizing r with
    | nil => exact List.Sublist.refl _
    | cons c xs ih =>
      rw [Reading.kept]
      split
      · exact (ih _).cons c
      · exact (ih _).cons_cons c
  obtain ⟨s, hs, rfl⟩ := Option.map_eq_some_iff.mp h
  have hreads : Scanner.Reads {} {} := ⟨rfl, rfl, rfl, rfl, by simp⟩
  have htext := hreads.text_scanAll hs
  rw [← s.text_flush, Scanner.text, s.argBuffer_flush, List.append_nil] at htext
  have hmem : b ∈ s.flush.argv.flatten := List.mem_flatten.mpr ⟨token, htoken, hb⟩
  rw [htext] at hmem
  exact (hkept {} line).subset hmem

/-- The text that a command joins, and the bound that its array sets. -/
def joinedText? (argv : List CStr) : Option (CStr × Nat) :=
  if argv.getD 0 [] = ascii "PUBLISH" ∧ 3 ≤ argv.length then some (joined (argv.drop 2), 799)
  else if argv.getD 0 [] = ascii "SET" ∧ 4 ≤ argv.length then some (joined (argv.drop 3), 255)
  else none

/-- A command keeps to its arrays exactly if the text that it joins does. -/
theorem adminCommand_isSome {argv : List CStr} (hargv : ∀ t ∈ argv, 0 ∉ t) (stack : AdminStack) :
    (adminCommand stack argv).isSome = true ↔
      ∀ text bound, joinedText? argv = some (text, bound) → text.length ≤ bound := by
  have hdrop (k : Nat) : ∀ t ∈ argv.drop k, 0 ∉ t := fun t ht => hargv t (List.mem_of_mem_drop ht)
  by_cases hpublish : argv.getD 0 [] = ascii "PUBLISH" ∧ 3 ≤ argv.length
  · have hstatus : argv.getD 0 [] ≠ ascii "STATUS" := by rw [hpublish.1]; decide
    rw [adminCommand, if_neg (by omega), if_neg hstatus, if_pos hpublish, Option.isSome_map,
      joinTokens_isSome (hdrop 2), joinedText?, if_pos hpublish]
    simp
  · by_cases hset : argv.getD 0 [] = ascii "SET" ∧ 4 ≤ argv.length
    · have hstatus : argv.getD 0 [] ≠ ascii "STATUS" := by rw [hset.1]; decide
      rw [adminCommand, if_neg (by omega), if_neg hstatus, if_neg hpublish, if_pos hset,
        Option.isSome_map, joinTokens_isSome (hdrop 3), joinedText?, if_neg hpublish, if_pos hset]
      simp
    · have hsome : (adminCommand stack argv).isSome = true := by
        simp only [adminCommand, if_neg hpublish, if_neg hset]
        repeat' split
        all_goals rfl
      rw [joinedText?, if_neg hpublish, if_neg hset]
      exact iff_of_true hsome fun text bound h => nomatch h

/-! ## Both bounds -/

/-- The line buffer is never exceeded exactly if no byte is written when 1024 bytes are in the
line, and the arrays of a command exactly if the joined text leaves room for its terminator. -/
theorem cli_buffers_iff {h : History} (hvalid : h.Valid) :
    (∀ input : List UInt8, (run pressKey ⟨h, .fresh⟩ (readKeys input)).isSome = true ↔
      ∀ front k back p, readKeys input = front ++ k :: back →
        run pressKey ⟨h, .fresh⟩ front = some p → Layout.Writes k → p.line.length ≠ lineSize) ∧
    ∀ line : CStr, 0 ∉ line → ∀ argv, tokenizeCommand line = some argv → ∀ stack : AdminStack,
      ((adminCommand stack argv).isSome = true ↔
        ∀ text bound, joinedText? argv = some (text, bound) → text.length ≤ bound) := by
  refine ⟨fun input => run_pressKey_isSome (Layout.valid_fresh hvalid) (readKeys input), ?_⟩
  intro line hline argv hargv stack
  refine adminCommand_isSome (fun t ht hzero => ?_) stack
  exact hline (mem_of_mem_token hargv ht hzero)

/-- Storage of a stack. -/
def someStack : AdminStack := ⟨.filled 63 9, .filled 127 9, .filled 63 9⟩

/-- A command with a value of several words is typed and joined. -/
theorem cli_buffers_iff_word :
    (run pressKey ⟨History.empty, .fresh⟩ (readKeys (ascii "SET h k v w"))).isSome = true ∧
      (adminCommand someStack [ascii "SET", ascii "h", ascii "k", ascii "v", ascii "w"]).isSome =
        true := by
  constructor
  · refine ((cli_buffers_iff History.empty_valid).1 (ascii "SET h k v w")).mpr ?_
    intro front k back p hkeys hp _ hfull
    rw [readKeys_eq_map (by decide), List.map_eq_append_iff] at hkeys
    obtain ⟨bytes, rest, hline, rfl, -⟩ := hkeys
    have htyped : ∀ c ∈ ascii "SET h k v w", IsTyped c := by decide +kernel
    have hlen : bytes.length + rest.length = 11 := by
      rw [← List.length_append, ← hline]
      rfl
    rw [length_of_run_typed History.empty_valid
      (fun c hc => htyped c (hline ▸ List.mem_append_left rest hc))
      (Nat.le_trans (Nat.le_of_add_right_le hlen.le) (by decide)) hp] at hfull
    rw [hfull] at hlen
    exact absurd (Nat.le_of_add_right_le hlen.le) (by decide)
  · have htokens : tokenizeCommand (ascii "SET h k v w") =
        some [ascii "SET", ascii "h", ascii "k", ascii "v", ascii "w"] := by decide +kernel
    have hjoined : joinedText? [ascii "SET", ascii "h", ascii "k", ascii "v", ascii "w"] =
        some (ascii "v w", 255) := by decide
    refine ((cli_buffers_iff History.empty_valid).2 (ascii "SET h k v w") (by decide) _ htokens
      someStack).mpr fun text bound htext => ?_
    rw [hjoined] at htext
    obtain ⟨rfl, rfl⟩ := Prod.mk.inj (Option.some.inj htext)
    decide

/-- The 1025th byte of a line is written behind the buffer. -/
theorem run_pressKey_full :
    run pressKey ⟨History.empty, .fresh⟩ (readKeys (List.replicate (lineSize + 1) (byte 'a'))) =
      none := by
  have hz : (Layout.fresh History.empty).Valid := Layout.valid_fresh History.empty_valid
  have htyped : ∀ c ∈ List.replicate lineSize (byte 'a'), IsTyped c := by
    intro c hc
    rw [List.eq_of_mem_replicate hc]
    decide
  have hlen : (List.replicate lineSize (byte 'a')).length ≤
      (Layout.fresh History.empty).behind.length := by simp [Layout.fresh]
  have hfill := Layout.run_typed hz htyped hlen
  have hkeys : readKeys (List.replicate (lineSize + 1) (byte 'a')) =
      (List.replicate lineSize (byte 'a')).map Key.char ++ [.char (byte 'a')] := by
    have hescape : 27 ∉ List.replicate (lineSize + 1) (byte 'a') := fun hmem =>
      absurd (List.eq_of_mem_replicate hmem) (by decide)
    rw [readKeys_eq_map hescape, List.replicate_succ', List.map_append, List.map_singleton]
  obtain ⟨z, hz', hp⟩ := exists_layout_of_run hz hfill
  rw [hp] at hfill
  have hfull : z.text.length = lineSize := by
    have hline := length_of_run_typed History.empty_valid htyped (by simp) hfill
    rw [List.length_replicate] at hline
    rw [Layout.text, List.length_append]
    exact hline
  rw [hkeys]
  refine run_eq_none_iff.mpr ⟨_, .char (byte 'a'), [], z.prompt, rfl, hfill, ?_⟩
  have hwrites : Layout.Writes (.char (byte 'a')) := ⟨by decide, by decide⟩
  rw [pressKey, Layout.press_prompt hz', (Layout.press_eq_none_iff hz' _).mpr ⟨hwrites, hfull⟩]
  rfl

/-- A PUBLISH of 800 bytes. -/
def longPublish : CStr := ascii "PUBLISH t " ++ List.replicate 800 (byte 'x')

/-- The tokens of a PUBLISH of 800 bytes. -/
def longTokens : List CStr := [ascii "PUBLISH", ascii "t", List.replicate 800 (byte 'x')]

theorem adminCommand_longTokens : adminCommand someStack longTokens = none := by
  have hnul : ∀ t ∈ longTokens, 0 ∉ t := by decide +kernel
  have hjoined : joinedText? longTokens = some (List.replicate 800 (byte 'x'), 799) := by
    decide +kernel
  by_contra hsome
  have hbound := (adminCommand_isSome hnul someStack).mp (Option.isSome_iff_ne_none.mpr hsome) _ _
    hjoined
  rw [List.length_replicate] at hbound
  omega

/-- The 1025th key is stored behind the buffer, and 800 bytes leave no room for a terminator. -/
theorem cli_buffers_exceeded :
    run pressKey ⟨History.empty, .fresh⟩ (readKeys (List.replicate (lineSize + 1) (byte 'a'))) =
      none ∧
    tokenizeCommand longPublish = some longTokens ∧ adminCommand someStack longTokens = none :=
  ⟨run_pressKey_full, by decide +kernel, adminCommand_longTokens⟩

end AdMQ
