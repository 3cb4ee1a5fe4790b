import AdMQ.Cli.Commands
import AdMQ.Ini.Config

/-!
# Copies into arrays on the stack

The broker, the agent and the CLI fill arrays on the stack by
`strncpy(dst, src, sizeof(dst) - 1)` and rely on a terminator. A source that fills the
copy leaves the last byte of the array as the stack held it, so that the array is a
terminated string exactly if that byte was zero.
-/

namespace AdMQ

open Core

/-- The array holds the longest prefix of a string that leaves room for a terminator exactly if
the string is shorter than that or the last byte of the storage is zero. -/
def CopyEnds {size : Nat} (storage result : CharArray size) (src : CStr) : Prop :=
  result.Holds (src.take size) ↔ src.length < size ∨ storage.last = 0

theorem copyEnds_copy {size : Nat} (storage : CharArray size) {src : CStr} (hsrc : 0 ∉ src) :
    CopyEnds storage (storage.copy src) src :=
  storage.holds_copy_iff hsrc

/-! ## Values of settings -/

theorem nul_notMem_keyValue? {trimmed : CStr} (h : 0 ∉ trimmed) {e : CStr × CStr}
    (he : keyValue? trimmed = some e) : 0 ∉ e.2 := by
  rw [keyValue?] at he
  split at he
  · obtain rfl := Option.some.inj he
    intro hmem
    exact h ((List.dropWhile_sublist _).subset (List.mem_of_mem_drop (mem_of_mem_trim hmem)))
  · cases he

theorem mem_of_mem_stripQuotes {val : CStr} {b : UInt8} (h : b ∈ stripQuotes val) : b ∈ val := by
  rw [stripQuotes] at h
  split at h
  · exact List.dropLast_subset _ (List.mem_of_mem_tail h)
  · exact h

/-- The value of a setting holds no NUL. -/
theorem nul_notMem_settings {text : List UInt8} {e : CStr × CStr} (he : e ∈ settings text) :
    0 ∉ e.2 := by
  obtain ⟨trimmed, htrimmed, hsetting⟩ := List.mem_filterMap.mp he
  obtain ⟨block, -, rfl⟩ := List.mem_map.mp htrimmed
  have hnul : 0 ∉ trimWhitespace (cstr block) := fun hmem =>
    nul_notMem_cstr block (mem_of_mem_trim hmem)
  rw [setting?] at hsetting
  split at hsetting
  · cases hsetting
  · obtain ⟨kv, hkv, rfl⟩ := Option.map_eq_some_iff.mp hsetting
    exact fun hmem => nul_notMem_keyValue? hnul hkv (mem_of_mem_stripQuotes hmem)

theorem nul_notMem_settingOr {key default : CStr} (hdefault : 0 ∉ default)
    (file : Option (List UInt8)) : 0 ∉ settingOr key default file := by
  rw [settingOr, lastValue_eq]
  cases hlast : (valuesOf key (fileSettings file)).getLast? with
  | none => exact hdefault
  | some v =>
    obtain ⟨e, he, rfl⟩ := List.mem_map.mp (List.mem_of_getLast? hlast)
    have hmem : e ∈ fileSettings file := List.mem_of_mem_filter he
    cases file with
    | none => cases hmem
    | some text => exact nul_notMem_settings hmem

/-- A string field after a load. -/
theorem StringField.Assigned.copyEnds {σ : Type} {f : StringField σ}
    {assign : σ → CStr → CStr → σ} {defaults : σ → σ} (h : f.Assigned assign defaults)
    (hdefault : 0 ∉ f.default) (c : σ) (file : Option (List UInt8)) :
    CopyEnds (f.get c) (f.get (loadSettings assign (defaults c) file).2)
      (settingOr f.key f.default file) := by
  rw [h.get_load]
  exact copyEnds_copy _ (nul_notMem_settingOr hdefault file)

/-! ## The section of an action -/

/-- Blanks become underscores. -/
def underscored (arg : CStr) : CStr := arg.map fun b => if b = byte ' ' then byte '_' else b

@[simp] theorem length_underscored (arg : CStr) : (underscored arg).length = arg.length :=
  List.length_map ..

/-- `safe_arg` is what a reader finds in the array, and behind it if nothing ends it there. -/
theorem safeArg_eq (storage : CharArray 127) (beyond : List UInt8) {arg : CStr} (harg : 0 ∉ arg) :
    safeArg (cstr (storage.last :: beyond)) arg =
      underscored (cstr ((storage.copy arg).bytes ++ beyond)) := by
  rw [safeArg, underscored, CharArray.bytes_copy, padded]
  by_cases hshort : arg.length < 127
  · obtain ⟨n, hn⟩ : ∃ n, 127 - arg.length = n + 1 := ⟨126 - arg.length, by omega⟩
    rw [if_pos hshort, hn, List.take_of_length_le hshort.le, List.replicate_succ,
      List.append_assoc, List.append_assoc, List.cons_append, cstr_append_zero, cstr_eq_self harg]
  · have htake : 0 ∉ arg.take 127 := fun h => harg (List.mem_of_mem_take h)
    rw [if_neg hshort, Nat.sub_eq_zero_of_le (by omega), List.replicate_zero, List.append_nil,
      List.append_assoc, List.singleton_append, cstr, cstr,
      List.takeWhile_append_of_pos (bne_of_notMem htake)]

/-- The section that is looked up is that of the argument under the same condition. -/
theorem targetSection_iff (storage : CharArray 127) (beyond : List UInt8) {arg : CStr}
    (hlen : arg.length ≤ 127) :
    targetSection (cstr (storage.last :: beyond)) arg =
        ascii "[" ++ underscored arg ++ ascii "]" ↔
      arg.length < 127 ∨ storage.last = 0 := by
  have hbracket : (ascii "[").length = 1 ∧ (ascii "]").length = 1 := by decide
  have hfits : (ascii "[" ++ underscored arg ++ ascii "]").length ≤ 255 := by
    simp only [List.length_append, length_underscored, hbracket.1, hbracket.2]
    omega
  by_cases hends : arg.length < 127 ∨ storage.last = 0
  · have hsafe : safeArg (cstr (storage.last :: beyond)) arg = underscored arg := by
      rw [safeArg, underscored]
      rcases hends with hshort | hzero
      · rw [if_pos hshort]
      · have hnil : cstr (storage.last :: beyond) = [] := by rw [hzero]; rfl
        rw [hnil, List.append_nil, List.take_of_length_le hlen, ite_self]
    rw [targetSection, hsafe, List.take_of_length_le hfits]
    exact iff_of_true rfl hends
  · refine iff_of_false (fun heq => ?_) hends
    rw [not_or] at hends
    -- The byte that was left in the array makes the section longer than the argument.
    have hpos : 1 ≤ (cstr (storage.last :: beyond)).length := by
      rw [cstr, List.takeWhile_cons_of_pos (p := (· != 0)) (bne_iff_ne.mpr hends.2),
        List.length_cons]
      omega
    have hlonger := congrArg List.length heq
    simp only [targetSection, safeArg, if_neg hends.1, List.length_take, List.length_append,
      List.length_map, length_underscored, hbracket.1, hbracket.2] at hlonger
    omega

/-! ## All copies -/

/-- The copies of a command of the CLI. -/
def AdminCommand.CopiesEnd (stack : AdminStack) (argv : List CStr) : AdminCommand → Prop
  | .publish topic _ => CopyEnds stack.topic topic (argv.getD 1 [])
  | .set targetHost key _ => CopyEnds stack.targetHost targetHost (argv.getD 1 []) ∧
      CopyEnds stack.key key (argv.getD 2 [])
  | .get targetHost key => CopyEnds stack.targetHost targetHost (argv.getD 1 []) ∧
      CopyEnds stack.key key (argv.getD 2 [])
  | _ => True

theorem adminCommand_copiesEnd {argv : List CStr} (hargv : ∀ t ∈ argv, 0 ∉ t)
    (stack : AdminStack) {c : AdminCommand} (hc : adminCommand stack argv = some c) :
    c.CopiesEnd stack argv := by
  have harg (i : Nat) : 0 ∉ argv.getD i [] := by
    rw [List.getD_eq_getElem?_getD]
    cases hi : argv[i]? with
    | none => exact List.not_mem_nil
    | some t => exact hargv t (List.mem_of_getElem? hi)
  simp only [adminCommand] at hc
  split at hc
  · obtain rfl := Option.some.inj hc
    trivial
  split at hc
  · obtain rfl := Option.some.inj hc
    trivial
  split at hc
  · obtain ⟨payload, -, rfl⟩ := Option.map_eq_some_iff.mp hc
    exact copyEnds_copy _ (harg 1)
  split at hc
  · obtain ⟨value, -, rfl⟩ := Option.map_eq_some_iff.mp hc
    exact ⟨copyEnds_copy _ (harg 1), copyEnds_copy _ (harg 2)⟩
  split at hc
  · obtain rfl := Option.some.inj hc
    exact ⟨copyEnds_copy _ (harg 1), copyEnds_copy _ (harg 2)⟩
  split at hc
  · obtain rfl := Option.some.inj hc
    trivial
  split at hc
  · obtain rfl := Option.some.inj hc
    trivial
  split at hc
  · obtain rfl := Option.some.inj hc
    trivial
  · obtain rfl := Option.some.inj hc
    trivial

/-- Every copy of the loaders, of the agent's lookup and of the CLI ends in a terminator exactly
if its source is shorter than the copy or the storage had one in its last byte. -/
theorem copies_end_iff (file : Option (List UInt8)) (broker : BrokerConfig) (agent : AgentConfig)
    (storage : CharArray 127) (beyond : List UInt8) (stack : AdminStack) :
    (∀ f ∈ brokerStrings, CopyEnds (f.get broker) (f.get (configLoad file broker).2)
      (settingOr f.key f.default file)) ∧
    (∀ f ∈ agentStrings, CopyEnds (f.get agent) (f.get (agentConfigLoad file agent).2)
      (settingOr f.key f.default file)) ∧
    (∀ arg : CStr, 0 ∉ arg → arg.length ≤ 127 →
      CopyEnds storage (storage.copy arg) arg ∧
      safeArg (cstr (storage.last :: beyond)) arg =
        underscored (cstr ((storage.copy arg).bytes ++ beyond)) ∧
      (targetSection (cstr (storage.last :: beyond)) arg =
          ascii "[" ++ underscored arg ++ ascii "]" ↔
        arg.length < 127 ∨ storage.last = 0)) ∧
    ∀ line : CStr, 0 ∉ line → ∀ argv, tokenizeCommand line = some argv →
      ∀ c : AdminCommand, adminCommand stack argv = some c → c.CopiesEnd stack argv := by
  have hbroker : ∀ f ∈ brokerStrings, 0 ∉ f.default := by
    simp only [brokerStrings, List.forall_mem_cons]
    exact ⟨by decide, by decide, by decide, by decide, List.forall_mem_nil _⟩
  have hagent : ∀ f ∈ agentStrings, 0 ∉ f.default := by
    simp only [agentStrings, List.forall_mem_cons]
    exact ⟨by decide, by decide, by decide, by decide, by decide, by decide,
      List.forall_mem_nil _⟩
  refine ⟨fun f hf => ?_, fun f hf => ?_, ?_, ?_⟩
  · exact (brokerStrings_assigned f hf).copyEnds (hbroker f hf) broker file
  · exact (agentStrings_assigned f hf).copyEnds (hagent f hf) agent file
  · intro arg harg hlen
    exact ⟨copyEnds_copy storage harg, safeArg_eq storage beyond harg,
      targetSection_iff storage beyond hlen⟩
  · intro line hline argv hargv c hc
    have hnul : ∀ t ∈ argv, 0 ∉ t := fun t ht hzero => hline (mem_of_mem_token hargv ht hzero)
    exact adminCommand_copiesEnd hnul stack hc

/-- Storage of the configurations. -/
def someBroker : BrokerConfig :=
  ⟨9, 9, .filled 255 9, .filled 255 9, .filled 255 9, .filled 255 9⟩

def someAgent : AgentConfig :=
  ⟨.filled 63 9, 9, .filled 255 9, .filled 255 9, .filled 255 9, .filled 63 9, .filled 255 9⟩

theorem copies_end_iff_short :
    ((CharArray.filled 127 9).copy (ascii "web")).Holds (ascii "web") :=
  have hall := copies_end_iff none someBroker someAgent (.filled 127 9) [] someStack
  (hall.2.2.1 (ascii "web") (by decide) (by decide)).1.mpr (Or.inl (by decide))

/-- An argument of 127 bytes. -/
def longArgument : CStr := List.replicate 127 (byte 'a')

/-- With another byte than zero in the last place, no terminator is found, and the section that
is looked up is another one. -/
theorem longArgument_unterminated :
    0 ∉ ((CharArray.filled 127 9).copy longArgument).bytes ∧
    targetSection (cstr ((CharArray.filled 127 9).last :: [0])) longArgument ≠
      ascii "[" ++ underscored longArgument ++ ascii "]" := by
  decide +kernel

end AdMQ
