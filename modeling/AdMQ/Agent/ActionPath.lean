import AdMQ.Agent.ActionFile
import AdMQ.Agent.Message
import AdMQ.Core.Path

/-!
# Where action files are

The path of an action file is made of the configured directory and the command word of
a message, without any check of the word. It is never cut, and it always names an `.ini`
file. It stays below the directory, wherever that is, exactly for the words that never
climb above where they start.
-/

namespace AdMQ

open Core

/-- The file lies below the action directory, and its name ends in `.ini`. -/
def Confined (cwd : List CStr) (actionDir command : CStr) : Prop :=
  ∃ below name, resolve cwd (actionPath actionDir command) =
    resolve cwd actionDir ++ below ++ [name] ∧ ascii ".ini" <:+ name

/-- The components of a command word with the extension. -/
def actionComponents (command : CStr) : List CStr := components (command ++ ascii ".ini")

variable {actionDir command : CStr}

/-- The path fits its buffer. -/
theorem actionPath_eq (hdir : actionDir.length ≤ 255) (hcommand : command.length ≤ 63) :
    actionPath actionDir command = actionDir ++ byte '/' :: (command ++ ascii ".ini") := by
  have hslash : ascii "/" = [byte '/'] := rfl
  have hini : (ascii ".ini").length = 4 := rfl
  rw [actionPath, List.take_of_length_le, hslash]
  · simp
  · rw [hslash]
    simp only [List.length_append, List.length_singleton, hini]
    omega

/-- The last component is the name of an `.ini` file. -/
theorem exists_actionComponents (command : CStr) :
    ∃ before last, actionComponents command = before ++ [last ++ ascii ".ini"] :=
  exists_components_append (by decide) command

theorem ini_name (last : CStr) : last ++ ascii ".ini" ≠ [] ∧ last ++ ascii ".ini" ≠ ascii "." ∧
    last ++ ascii ".ini" ≠ ascii ".." := by
  have hlen : 4 ≤ (last ++ ascii ".ini").length := by
    rw [List.length_append]
    exact Nat.le_add_left ..
  refine ⟨?_, ?_, ?_⟩ <;>
  · intro h
    rw [h] at hlen
    revert hlen
    decide

theorem resolve_actionPath (hdir : actionDir ≠ []) (hlen : actionDir.length ≤ 255)
    (hcommand : command.length ≤ 63) (cwd : List CStr) :
    resolve cwd (actionPath actionDir command) =
      walkAll (resolve cwd actionDir) (actionComponents command) := by
  rw [actionPath_eq hlen hcommand, resolve_append hdir]
  rfl

/-- A word that does not climb stays below any directory. -/
theorem confined_of_not_climbs (h : climbs 0 (actionComponents command) = false)
    (hcommand : command.length ≤ 63) (cwd : List CStr) (hdir : actionDir ≠ [])
    (hlen : actionDir.length ≤ 255) : Confined cwd actionDir command := by
  obtain ⟨before, last, hlast⟩ := exists_actionComponents command
  refine ⟨walkAll [] before, last ++ ascii ".ini", ?_, List.suffix_append ..⟩
  have hwalk := walkAll_append [] h (resolve cwd actionDir)
  rw [List.append_nil] at hwalk
  rw [resolve_actionPath hdir hlen hcommand, hwalk, hlast, walkAll_concat (ini_name last),
    List.append_assoc]

/-- A directory whose name is longer than any component of a path with a command word. -/
def longDir : CStr := List.replicate 100 (byte 'a')

/-- A word that climbs leaves some directory. -/
theorem not_confined_of_climbs (h : climbs 0 (actionComponents command) = true)
    (hcommand : command.length ≤ 63) : ¬ Confined [] longDir command := by
  rintro ⟨below, name, hresolve, -⟩
  have hdir : resolve [] longDir = [longDir] := by decide +kernel
  rw [resolve_actionPath (by decide) (by decide) hcommand, hdir] at hresolve
  have hmem : longDir ∈ walkAll [longDir] (actionComponents command) := by
    rw [hresolve]
    simp
  rcases mem_of_climbs [] h hmem with hnil | hpiece
  · cases hnil
  · have hlen := length_le_of_mem_splitOn hpiece
    have hini : (ascii ".ini").length = 4 := rfl
    have hlong : longDir.length = 100 := List.length_replicate
    rw [List.length_append] at hlen
    omega

/-- The command word of a message is at most 63 bytes long. -/
theorem length_command_le (bytes : List UInt8) : (agentMessage bytes).command.length ≤ 63 := by
  have haction (topic rest : CStr) : (scanAction topic rest).command.length ≤ 63 := by
    unfold scanAction
    split
    · exact Nat.zero_le _
    · next hword =>
      have hle := (isWord_of_scanWord hword).1.length_le
      split <;> exact hle
  unfold agentMessage scanAgentMessage
  repeat' split
  all_goals first
    | exact Nat.zero_le _
    | exact haction _ _

/-- The path for the command word of any message is not cut and names an `.ini` file; the
file lies below the action directory, wherever that is, if and only if the word does not
climb. -/
theorem confined_iff_not_climbs (bytes : List UInt8) :
    (∀ cwd actionDir, actionDir ≠ [] → actionDir.length ≤ 255 →
      actionPath actionDir (agentMessage bytes).command =
          actionDir ++ ascii "/" ++ (agentMessage bytes).command ++ ascii ".ini" ∧
        ∃ place name, resolve cwd (actionPath actionDir (agentMessage bytes).command) =
          place ++ [name] ∧ ascii ".ini" <:+ name) ∧
      ((∀ cwd actionDir, actionDir ≠ [] → actionDir.length ≤ 255 →
          Confined cwd actionDir (agentMessage bytes).command) ↔
        climbs 0 (actionComponents (agentMessage bytes).command) = false) := by
  have hcommand := length_command_le bytes
  refine ⟨?_, ?_, ?_⟩
  · intro cwd actionDir hdir hlen
    refine ⟨by rw [actionPath_eq hlen hcommand]; simp [ascii], ?_⟩
    obtain ⟨before, last, hlast⟩ := exists_actionComponents (agentMessage bytes).command
    refine ⟨walkAll (resolve cwd actionDir) before, last ++ ascii ".ini", ?_,
      List.suffix_append ..⟩
    rw [resolve_actionPath hdir hlen hcommand, hlast, walkAll_concat (ini_name last)]
  · intro hconfined
    rw [Bool.eq_false_iff]
    intro hclimbs
    exact not_confined_of_climbs hclimbs hcommand
      (hconfined [] longDir (by decide) (by decide))
  · intro hclimbs cwd actionDir hdir hlen
    exact confined_of_not_climbs hclimbs hcommand cwd hdir hlen

theorem confined_iff_not_climbs_restart :
    (agentMessage (ascii "[CMD-GRP-1] restart nginx\n")).Executes (ascii "CMD-GRP-1") ∧
      Confined [ascii "opt"] (ascii "./actions")
        (agentMessage (ascii "[CMD-GRP-1] restart nginx\n")).command :=
  ⟨by decide +kernel, (confined_iff_not_climbs _).2.mpr (by decide +kernel) _ _ (by decide)
    (by decide)⟩

/-- A message for the command group makes the agent read a file outside of its directory. -/
theorem not_confined_parent :
    (agentMessage (ascii "[CMD-GRP-1] ../../tmp/evil x\n")).Executes (ascii "CMD-GRP-1") ∧
      resolve [ascii "opt", ascii "admq"] (ascii "./actions") =
        [ascii "opt", ascii "admq", ascii "actions"] ∧
      resolve [ascii "opt", ascii "admq"] (actionPath (ascii "./actions")
        (agentMessage (ascii "[CMD-GRP-1] ../../tmp/evil x\n")).command) =
          [ascii "opt", ascii "tmp", ascii "evil.ini"] := by
  decide +kernel

end AdMQ
