import AdMQ.Agent.Action
import AdMQ.Ini.Lines

/-!
# Looking up an action

`parse_ini_action` looks for the block of an argument in the action file of a command
and collects up to three fields from it. The loop over the lines carries a flag for the
block and leaves early. What it finds are the last entries for each field in one stretch
of the file, with one difference: a value that is a lone double quote counts as a pair.
-/

namespace AdMQ

open Core

/-- `safe_arg`: a longer argument is cut without a terminator, and a reader goes on with
what the stack holds from the last byte on. -/
def safeArg (stack arg : CStr) : CStr :=
  (if arg.length < 127 then arg else arg.take 127 ++ stack).map fun b =>
    if b = byte ' ' then byte '_' else b

/-- `target_section`. -/
def targetSection (stack arg : CStr) : CStr :=
  (ascii "[" ++ safeArg stack arg ++ ascii "]").take 255

/-- Blank lines and comments of an action file. -/
def isIgnored (trimmed : CStr) : Bool :=
  trimmed.isEmpty || trimmed.head? == some (byte ';') || trimmed.head? == some (byte '#')

/-- The quotes are stripped when the value begins and ends with one. -/
def stripQuotes (val : CStr) : CStr :=
  if val.head? = some doubleMark ∧ val.getLast? = some doubleMark then val.dropLast.tail else val

/-- `strncpy` into the field of a key. -/
def ActionConfig.assign (c : ActionConfig) (key val : CStr) : ActionConfig :=
  if key = ascii "cmd" then
    { c with cmd := val.take 127, length_cmd := List.length_take_le .. }
  else if key = ascii "target" then
    { c with target := val.take 255, length_target := List.length_take_le .. }
  else if key = ascii "arguments" then
    { c with arguments := val.take 255, length_arguments := List.length_take_le .. }
  else c

/-- The variables of `parse_ini_action` between two lines. -/
structure ActionParser where
  inTargetSection : Bool
  foundConfig : Bool
  config : ActionConfig
  deriving DecidableEq

/-- What `parse_ini_action` returns and leaves in its last argument. -/
def ActionParser.result (p : ActionParser) : Bool × ActionConfig := (p.foundConfig, p.config)

/-- The branch of a line in the target block. -/
def ActionParser.keyLine (p : ActionParser) (trimmed : CStr) : ActionParser :=
  match keyValue? trimmed with
  | none => p
  | some (key, val) =>
    { p with config := p.config.assign key (stripQuotes val), foundConfig := true }

/-- The loop of `parse_ini_action` over trimmed lines. -/
def parseActionLines (target : CStr) : ActionParser → List CStr → ActionParser
  | p, [] => p
  | p, trimmed :: rest =>
    if isIgnored trimmed then parseActionLines target p rest
    else if isHeader trimmed then
      if trimmed = target then parseActionLines target { p with inTargetSection := true } rest
      else if p.inTargetSection then p
      else parseActionLines target { p with inTargetSection := false } rest
    else if p.inTargetSection then parseActionLines target (p.keyLine trimmed) rest
    else parseActionLines target p rest

/-- `snprintf(filepath, sizeof(filepath), "%s/%s.ini", action_dir, command)`. -/
def actionPath (actionDir command : CStr) : CStr :=
  (actionDir ++ ascii "/" ++ command ++ ascii ".ini").take 511

/-- `parse_ini_action`. -/
def parseIniAction (files : CStr → Option (List UInt8)) (stack actionDir command arg : CStr)
    (config : ActionConfig) : Bool × ActionConfig :=
  match files (actionPath actionDir command) with
  | none => (false, config)
  | some text =>
    (parseActionLines (targetSection stack arg) ⟨false, false, config⟩ (readLines text)).result

/-! ## The lookup an action file declares -/

/-- The header of the block for an argument. -/
def blockHeader (arg : CStr) : CStr :=
  byte '[' :: (arg.map (fun b => if b = byte ' ' then byte '_' else b) ++ [byte ']'])

/-- A block goes on until a header that differs from its own. -/
def inBlock (header l : CStr) : Bool := !isHeader l || l == header

/-- The lines behind the first line equal to the header, as far as the block goes. -/
def targetBlock (header : CStr) (lines : List CStr) : List CStr :=
  ((lines.dropWhile (· != header)).drop 1).takeWhile (inBlock header)

/-- The `key = value` lines of a block. -/
def blockEntries (block : List CStr) : List (CStr × CStr) :=
  (block.filter fun l => !isIgnored l && !isHeader l).filterMap keyValue?

/-- The block of an argument in an action file. -/
def actionBlock (text : List UInt8) (arg : CStr) : List CStr :=
  targetBlock (blockHeader arg) ((physicalLines text).map trimWhitespace)

/-- A value without one surrounding pair of double quotes. -/
def unquote (val : CStr) : CStr :=
  if 2 ≤ val.length ∧ val.head? = some doubleMark ∧ val.getLast? = some doubleMark then
    val.tail.dropLast
  else val

/-- The last value for a key, unquoted and cut to the size of its field. -/
def fieldValue (size : Nat) (key : CStr) (entries : List (CStr × CStr)) : CStr :=
  (((lastValue key entries).map unquote).getD []).take size

/-- Whether the block of an argument holds an entry, and the fields it gives. -/
def lookupAction (text : List UInt8) (arg : CStr) : Bool × ActionConfig :=
  let entries := blockEntries (actionBlock text arg)
  (!entries.isEmpty,
    { cmd := fieldValue 127 (ascii "cmd") entries
      target := fieldValue 255 (ascii "target") entries
      arguments := fieldValue 255 (ascii "arguments") entries
      length_cmd := List.length_take_le ..
      length_target := List.length_take_le ..
      length_arguments := List.length_take_le .. })

/-! ## The loop over the lines -/

variable {target : CStr} {p : ActionParser}

theorem parseActionLines_ignored {l : CStr} (h : isIgnored l = true) (p : ActionParser)
    (rest : List CStr) :
    parseActionLines target p (l :: rest) = parseActionLines target p rest := by
  rw [parseActionLines, if_pos h]

/-- Blank lines are of no influence. -/
theorem parseActionLines_filter (p : ActionParser) (lines : List CStr) :
    parseActionLines target p (lines.filter (· ≠ [])) = parseActionLines target p lines := by
  induction lines generalizing p with
  | nil => rfl
  | cons l rest ih =>
    by_cases hl : l = []
    · subst hl
      rw [List.filter_cons_of_neg (by simp), ih, parseActionLines_ignored rfl]
    · rw [List.filter_cons_of_pos (by simpa using hl)]
      simp only [parseActionLines, ih]

/-- A header is not ignored. -/
theorem isIgnored_of_isHeader {l : CStr} (h : isHeader l = true) : isIgnored l = false := by
  cases l with
  | nil => cases h
  | cons b l =>
    obtain rfl : b = byte '[' := by simpa [isHeader] using h
    rfl

/-- In front of the target block nothing happens. -/
theorem parseActionLines_outside (hp : p.inTargetSection = false) {lines : List CStr}
    (h : target ∉ lines) (rest : List CStr) :
    parseActionLines target p (lines ++ rest) = parseActionLines target p rest := by
  have hsame : { p with inTargetSection := false } = p := by rw [← hp]
  induction lines with
  | nil => rfl
  | cons l lines ih =>
    rw [List.mem_cons, not_or] at h
    rw [List.cons_append, parseActionLines, if_neg (Ne.symm h.1), hp, hsame, ih h.2]
    simp

/-- The header of the block sets the flag. -/
theorem parseActionLines_header (htarget : isHeader target = true) (p : ActionParser)
    (rest : List CStr) :
    parseActionLines target p (target :: rest) =
      parseActionLines target { p with inTargetSection := true } rest := by
  simp [parseActionLines, isIgnored_of_isHeader htarget, htarget]

/-- The configuration after some entries. -/
def ActionConfig.assignAll (c : ActionConfig) (entries : List (CStr × CStr)) : ActionConfig :=
  entries.foldl (fun c e => c.assign e.1 (stripQuotes e.2)) c

/-- Inside the block its entries are assigned one after the other, up to the next header. -/
theorem parseActionLines_inside (htarget : isHeader target = true) (hp : p.inTargetSection = true)
    (lines : List CStr) :
    let entries := blockEntries (lines.takeWhile (inBlock target))
    (parseActionLines target p lines).result =
      (p.foundConfig || !entries.isEmpty, p.config.assignAll entries) := by
  induction lines generalizing p with
  | nil => exact Prod.ext (Bool.or_false _).symm rfl
  | cons l lines ih =>
    by_cases hstop : inBlock target l = true
    · rw [List.takeWhile_cons_of_pos hstop]
      cases hignored : isIgnored l with
      | true =>
        rw [parseActionLines_ignored hignored, ih hp, blockEntries, blockEntries,
          List.filter_cons_of_neg (by simp [hignored])]
      | false =>
        cases hheader : isHeader l with
        | true =>
          obtain rfl : l = target := by simpa [inBlock, hheader] using hstop
          have hsame : { p with inTargetSection := true } = p := by rw [← hp]
          rw [parseActionLines_header htarget, hsame, ih hp, blockEntries, blockEntries,
            List.filter_cons_of_neg (by simp [hheader])]
        | false =>
          have hline : parseActionLines target p (l :: lines) =
              parseActionLines target (p.keyLine l) lines := by
            simp [parseActionLines, hignored, hheader, hp]
          rw [hline, blockEntries, List.filter_cons_of_pos (by simp [hignored, hheader])]
          unfold ActionParser.keyLine
          cases hkey : keyValue? l with
          | none =>
            rw [List.filterMap_cons_none hkey]
            exact ih hp
          | some e =>
            rw [List.filterMap_cons_some hkey]
            refine (ih (p := { p with config := _, foundConfig := true }) hp).trans ?_
            simp [ActionConfig.assignAll, blockEntries]
    · rw [List.takeWhile_cons_of_neg hstop]
      simp only [inBlock, Bool.or_eq_true, Bool.not_eq_true', beq_iff_eq, not_or,
        Bool.not_eq_false] at hstop
      obtain ⟨hheader, hne⟩ := hstop
      have hstays : parseActionLines target p (l :: lines) = p := by
        simp [parseActionLines, isIgnored_of_isHeader hheader, hheader, hne, hp]
      rw [hstays]
      exact Prod.ext (Bool.or_false _).symm rfl

/-- The block behind the first line equal to its header. -/
theorem targetBlock_append {before : List CStr} (h : target ∉ before) (rest : List CStr) :
    targetBlock target (before ++ target :: rest) = rest.takeWhile (inBlock target) := by
  have hdrop : (before ++ target :: rest).dropWhile (· != target) = target :: rest := by
    rw [List.dropWhile_append_of_pos]
    · simp
    · intro l hl
      rw [bne_iff_ne]
      rintro rfl
      exact h hl
  rw [targetBlock, hdrop, List.drop_one, List.tail_cons]

theorem targetBlock_of_notMem {lines : List CStr} (h : target ∉ lines) :
    targetBlock target lines = [] := by
  have hdrop : lines.dropWhile (· != target) = [] := by
    rw [List.dropWhile_eq_nil_iff]
    intro l hl
    rw [bne_iff_ne]
    rintro rfl
    exact h hl
  rw [targetBlock, hdrop]
  rfl

/-- The loop takes the entries of the target block and nothing else. -/
theorem parseActionLines_eq (htarget : isHeader target = true) (config : ActionConfig)
    (lines : List CStr) :
    let entries := blockEntries (targetBlock target lines)
    (parseActionLines target ⟨false, false, config⟩ lines).result =
      (!entries.isEmpty, config.assignAll entries) := by
  by_cases hmem : target ∈ lines
  · obtain ⟨before, rest, rfl, hbefore⟩ := List.eq_append_cons_of_mem hmem
    rw [parseActionLines_outside rfl hbefore, parseActionLines_header htarget,
      targetBlock_append hbefore]
    exact parseActionLines_inside htarget rfl rest
  · have houtside := parseActionLines_outside (p := ⟨false, false, config⟩) rfl hmem []
    rw [List.append_nil] at houtside
    rw [houtside, targetBlock_of_notMem hmem]
    rfl

/-! ## What the entries assign -/

/-- The field of a key holds the last value assigned to it. -/
theorem ActionConfig.field_assignAll {field : ActionConfig → CStr} {key : CStr} {size : Nat}
    (hassign : ∀ c k v, field (c.assign k v) = if k = key then v.take size else field c)
    (c : ActionConfig) (entries : List (CStr × CStr)) :
    field (c.assignAll entries) =
      ((lastValue key entries).map fun val => (stripQuotes val).take size).getD (field c) := by
  induction entries using List.reverseRecOn with
  | nil => rfl
  | append_singleton entries e ih =>
    rw [assignAll, List.foldl_concat, hassign, lastValue_concat]
    split_ifs
    · rfl
    · exact ih

theorem ActionConfig.cmd_assign (c : ActionConfig) (key val : CStr) :
    (c.assign key val).cmd = if key = ascii "cmd" then val.take 127 else c.cmd := by
  unfold assign
  split_ifs <;> rfl

theorem ActionConfig.target_assign (c : ActionConfig) (key val : CStr) :
    (c.assign key val).target = if key = ascii "target" then val.take 255 else c.target := by
  have hne : ascii "cmd" ≠ ascii "target" := by decide
  unfold assign
  split_ifs with h h' <;> simp_all

theorem ActionConfig.arguments_assign (c : ActionConfig) (key val : CStr) :
    (c.assign key val).arguments =
      if key = ascii "arguments" then val.take 255 else c.arguments := by
  have hne : ascii "cmd" ≠ ascii "arguments" := by decide
  have hne' : ascii "target" ≠ ascii "arguments" := by decide
  unfold assign
  split_ifs <;> simp_all

/-! ## Quotes -/

/-- The code strips the pair that it should, and a lone quote as well. -/
theorem stripQuotes_eq (val : CStr) :
    stripQuotes val = if val = [doubleMark] then [] else unquote val := by
  unfold stripQuotes unquote
  match val with
  | [] => simp
  | [b] =>
    by_cases hb : b = doubleMark
    · simp [hb]
    · simp [hb]
  | b :: c :: rest => simp

/-- A field gets what it should unless its last value is a lone quote. -/
theorem getD_stripQuotes {size : Nat} (hsize : 0 < size) (last : Option CStr) :
    (last.map fun val => (stripQuotes val).take size).getD [] =
        ((last.map unquote).getD []).take size ↔ last ≠ some [doubleMark] := by
  cases last with
  | none => simp
  | some val =>
    simp only [Option.map_some, Option.getD_some, ne_eq, Option.some.injEq, stripQuotes_eq]
    by_cases hval : val = [doubleMark]
    · subst hval
      have hne : size ≠ 0 := Nat.ne_of_gt hsize
      simp [unquote, hne]
    · simp [hval]

/-! ## The two lookups -/

/-- An argument that fits `safe_arg` is looked up under its header. -/
theorem targetSection_eq {arg : CStr} (harg : arg.length ≤ 126) (stack : CStr) :
    targetSection stack arg = blockHeader arg := by
  have hlt : arg.length < 127 := by omega
  rw [targetSection, safeArg, if_pos hlt, List.take_of_length_le]
  · rfl
  · simp only [ascii, List.length_append, List.length_map]
    have h1 : "[".toList.length = 1 := by decide
    have h2 : "]".toList.length = 1 := by decide
    omega

/-- What `parse_ini_action` makes of an action file. -/
theorem parseIniAction_eq {files : CStr → Option (List UInt8)} {actionDir command arg : CStr}
    {text : List UInt8} (hfile : files (actionPath actionDir command) = some text)
    (hlines : ∀ l ∈ physicalLines text, l.length ≤ 510) (hnul : 0 ∉ text)
    (harg : arg.length ≤ 126) (stack : CStr) (config : ActionConfig) :
    parseIniAction files stack actionDir command arg config =
      (!(blockEntries (actionBlock text arg)).isEmpty,
        config.assignAll (blockEntries (actionBlock text arg))) := by
  rw [parseIniAction, hfile, targetSection_eq harg]
  simp only
  rw [← parseActionLines_filter, filter_readLines text hlines hnul, parseActionLines_filter]
  exact parseActionLines_eq rfl config _

/-- The lookup agrees with the one that the file declares exactly when no field is given a
lone double quote as its last value; and only the lines of the block have influence on it. -/
theorem parseIniAction_lookup {files : CStr → Option (List UInt8)} {actionDir command arg : CStr}
    {text : List UInt8} (hfile : files (actionPath actionDir command) = some text)
    (hlines : ∀ l ∈ physicalLines text, l.length ≤ 510) (hnul : 0 ∉ text)
    (harg : arg.length ≤ 126) (stack : CStr) :
    (parseIniAction files stack actionDir command arg .zero = lookupAction text arg ↔
        ∀ key ∈ [ascii "cmd", ascii "target", ascii "arguments"],
          lastValue key (blockEntries (actionBlock text arg)) ≠ some [doubleMark]) ∧
      ∀ (files' : CStr → Option (List UInt8)) (text' : List UInt8),
        files' (actionPath actionDir command) = some text' →
        (∀ l ∈ physicalLines text', l.length ≤ 510) → 0 ∉ text' →
        actionBlock text' arg = actionBlock text arg →
        parseIniAction files' stack actionDir command arg .zero =
          parseIniAction files stack actionDir command arg .zero := by
  refine ⟨?_, ?_⟩
  · rw [parseIniAction_eq hfile hlines hnul harg, lookupAction]
    simp only [Prod.mk.injEq, true_and, ActionConfig.ext_iff, fieldValue,
      ActionConfig.field_assignAll ActionConfig.cmd_assign,
      ActionConfig.field_assignAll ActionConfig.target_assign,
      ActionConfig.field_assignAll ActionConfig.arguments_assign, ActionConfig.zero]
    rw [getD_stripQuotes (by decide), getD_stripQuotes (by decide), getD_stripQuotes (by decide)]
    simp only [List.forall_mem_cons, List.not_mem_nil, false_implies, implies_true, and_true]
  · intro files' text' hfile' hlines' hnul' hblock
    rw [parseIniAction_eq hfile' hlines' hnul' harg, parseIniAction_eq hfile hlines hnul harg,
      hblock]

/-- An action file with a block for `x` in front of another one. -/
def actionFile (value : CStr) : List UInt8 :=
  ascii "[x]\ncmd = " ++ value ++ ascii "\n[y]\ncmd = no\n"

theorem parseIniAction_lookup_pair :
    parseIniAction (fun _ => some (actionFile (ascii "\"ls -l\""))) [] (ascii "actions")
        (ascii "list") (ascii "x") .zero =
          lookupAction (actionFile (ascii "\"ls -l\"")) (ascii "x") ∧
      (lookupAction (actionFile (ascii "\"ls -l\"")) (ascii "x")).2.cmd = ascii "ls -l" := by
  have hfile : (fun _ : CStr => some (actionFile (ascii "\"ls -l\"")))
      (actionPath (ascii "actions") (ascii "list")) = some (actionFile (ascii "\"ls -l\"")) := rfl
  refine ⟨(parseIniAction_lookup hfile ?_ ?_ ?_ []).1.mpr ?_, ?_⟩
  all_goals decide +kernel

/-- With a lone quote the command is empty instead of the quote. -/
theorem parseIniAction_loneQuote :
    parseIniAction (fun _ => some (actionFile [doubleMark])) [] (ascii "actions") (ascii "list")
        (ascii "x") .zero = (true, .zero) ∧
      (lookupAction (actionFile [doubleMark]) (ascii "x")).2.cmd = [doubleMark] ∧
      (∀ l ∈ physicalLines (actionFile [doubleMark]), l.length ≤ 510) ∧
      0 ∉ actionFile [doubleMark] := by
  decide +kernel

end AdMQ
