import AdMQ.Agent.Tokenizer

/-!
# Executing an action

The three fields of an action are joined by blanks and tokenized. A field that ends
with every quote, escape and `$(` closed has no influence on the arguments that the
next ones contribute.
-/

namespace AdMQ

open Core

/-- `ActionConfig`: three strings that fit their fields. -/
@[ext] structure ActionConfig where
  cmd : CStr
  target : CStr
  arguments : CStr
  length_cmd : cmd.length ≤ 127
  length_target : target.length ≤ 255
  length_arguments : arguments.length ≤ 255
  deriving DecidableEq

/-- The configuration `{0}`. -/
def ActionConfig.zero : ActionConfig where
  cmd := []
  target := []
  arguments := []
  length_cmd := Nat.zero_le _
  length_target := Nat.zero_le _
  length_arguments := Nat.zero_le _

/-- `snprintf(exec_cmd, sizeof(exec_cmd), "%s %s %s", …)`. -/
def ActionConfig.execCmd (c : ActionConfig) : CStr :=
  (c.cmd ++ ascii " " ++ c.target ++ ascii " " ++ c.arguments).take 1023

/-- The arguments that the agent passes to `execvp`, if it gets there. -/
def ActionConfig.execvpArgs (c : ActionConfig) : Option (List CStr) :=
  match tokenizeCommand c.execCmd with
  | none => none
  | some argv => if 0 < argv.length then some argv else none

/-- The three fields fit `exec_cmd` with the blanks between them. -/
theorem ActionConfig.execCmd_eq (c : ActionConfig) :
    c.execCmd = c.cmd ++ byte ' ' :: (c.target ++ byte ' ' :: c.arguments) := by
  have hblank : ascii " " = [byte ' '] := rfl
  have hcmd := c.length_cmd
  have htarget := c.length_target
  have harguments := c.length_arguments
  rw [execCmd, List.take_of_length_le, hblank]
  · simp
  · rw [hblank]
    simp only [List.length_append, List.length_singleton]
    omega

/-- Texts joined by a blank are tokenized apart when the first ends neutrally. In particular
the arguments of `execvp` are those of the three fields one after the other. -/
theorem tokenizeCommand_apart :
    (∀ text more : CStr, text.length + more.length < 1022 → EndsNeutral text →
      ∃ argv argv', tokenizeCommand text = some argv ∧ tokenizeCommand more = some argv' ∧
        tokenizeCommand (text ++ byte ' ' :: more) = some (argv ++ argv')) ∧
      ∀ c : ActionConfig, EndsNeutral c.cmd → EndsNeutral c.target →
        c.execCmd = c.cmd ++ byte ' ' :: (c.target ++ byte ' ' :: c.arguments) ∧
          ∃ cmd target arguments, tokenizeCommand c.cmd = some cmd ∧
            tokenizeCommand c.target = some target ∧
            tokenizeCommand c.arguments = some arguments ∧
            c.execvpArgs = if 0 < (cmd ++ target ++ arguments).length then
              some (cmd ++ target ++ arguments) else none := by
  refine ⟨?_, ?_⟩
  · intro text more hlen hneutral
    exact tokenizeCommand_append text more (by unfold maxCmdLen; omega) hneutral
  · intro c hcmd htarget
    have hlen := c.length_cmd
    have hlen' := c.length_target
    have hlen'' := c.length_arguments
    obtain ⟨target, arguments, ht, ha, hrest⟩ :=
      tokenizeCommand_append c.target c.arguments
        (by unfold maxCmdLen; omega) htarget
    obtain ⟨cmd, rest, hc, hr, hall⟩ :=
      tokenizeCommand_append c.cmd (c.target ++ byte ' ' :: c.arguments)
        (by
          rw [List.length_append, List.length_cons]
          unfold maxCmdLen
          omega) hcmd
    obtain rfl : rest = target ++ arguments := Option.some.inj (hr.symm.trans hrest)
    refine ⟨c.execCmd_eq, cmd, target, arguments, hc, ht, ha, ?_⟩
    rw [ActionConfig.execvpArgs, c.execCmd_eq, hall, List.append_assoc]

theorem tokenizeCommand_apart_quoted :
    (ActionConfig.mk (ascii "echo 'a b'") (ascii "x") (ascii "$(c") (by decide) (by decide)
      (by decide)).execvpArgs = some [ascii "echo", ascii "a b", ascii "x", ascii "$(c"] := by
  have hcmd : EndsNeutral (ascii "echo 'a b'") :=
    ⟨{ argv := [ascii "echo"], argBuffer := ascii "a b" }, by decide +kernel, by decide⟩
  have htarget : EndsNeutral (ascii "x") :=
    ⟨{ argBuffer := ascii "x" }, by decide +kernel, by decide⟩
  obtain ⟨-, cmd, target, arguments, hc, ht, ha, hargs⟩ := tokenizeCommand_apart.2
    (ActionConfig.mk (ascii "echo 'a b'") (ascii "x") (ascii "$(c") (by decide) (by decide)
      (by decide)) hcmd htarget
  have hc' : tokenizeCommand (ascii "echo 'a b'") = some [ascii "echo", ascii "a b"] := by
    decide +kernel
  have ht' : tokenizeCommand (ascii "x") = some [ascii "x"] := by decide +kernel
  have ha' : tokenizeCommand (ascii "$(c") = some [ascii "$(c"] := by decide +kernel
  obtain rfl := Option.some.inj (hc'.symm.trans hc)
  obtain rfl := Option.some.inj (ht'.symm.trans ht)
  obtain rfl := Option.some.inj (ha'.symm.trans ha)
  exact hargs

end AdMQ
