import AdMQ.Ini.Config

/-!
# Writing and loading a configuration

Each field is written once, as `key = "value"`, in any order and with blank lines,
comments and section headers in between. The loader of such a text finds for every
key exactly the value that was written, whatever bytes stand in it, and the copy into
the array of the field keeps it, whatever the array held before.
-/

namespace AdMQ

open Core

/-- A setting as it is written. -/
def settingLine (e : CStr × CStr) : CStr := e.1 ++ ascii " = \"" ++ e.2 ++ ascii "\""

/-- A line of white space only. -/
def IsBlank (l : CStr) : Prop := ∀ b ∈ l, isspace b = true

instance (l : CStr) : Decidable (IsBlank l) :=
  decidable_of_iff (l.all isspace = true) List.all_eq_true

/-- A blank line, or a section header or comment of at most 510 bytes. -/
def IsFiller (l : CStr) : Prop :=
  IsBlank l ∨ (l.length ≤ 510 ∧
    ∃ b ∈ [byte '[', byte ';', byte '#'], (l.dropWhile isspace).head? = some b)

/-- The lines of a text are the settings and fillers, in any order. -/
def Interspersed (text : List UInt8) (entries : List (CStr × CStr)) : Prop :=
  ∃ fillers : List CStr, (∀ l ∈ fillers, IsFiller l) ∧
    (physicalLines text).Perm (entries.map settingLine ++ fillers)

/-- A name of lower-case letters and underscores. -/
structure IsKey (key : CStr) : Prop where
  ne_nil : key ≠ []
  name : ∀ b ∈ key, (97 ≤ b ∧ b ≤ 122) ∨ b = byte '_'

theorem isKey_iff {key : CStr} :
    key ≠ [] ∧ key.all (fun b => (97 ≤ b ∧ b ≤ 122) ∨ b = byte '_') = true ↔ IsKey key := by
  simp only [List.all_eq_true, decide_eq_true_eq]
  exact ⟨fun h => ⟨h.1, h.2⟩, fun h => ⟨h.ne_nil, h.name⟩⟩

instance (key : CStr) : Decidable (IsKey key) :=
  decidable_of_iff (key ≠ [] ∧ key.all (fun b => (97 ≤ b ∧ b ≤ 122) ∨ b = byte '_') = true)
    isKey_iff

/-! ## The lines that are read -/

/-- Every byte of a block stands in the text. -/
theorem mem_of_mem_fgetsFrom {cap : Nat} {text acc block : List UInt8} {b : UInt8}
    (h : block ∈ fgetsFrom cap text acc) (hb : b ∈ block) : b ∈ text ∨ b ∈ acc := by
  induction text generalizing acc with
  | nil =>
    by_cases he : acc = []
    · simp [fgetsFrom, he] at h
    · rw [fgetsFrom_nil cap he, List.mem_singleton] at h
      rw [h, List.mem_reverse] at hb
      exact Or.inr hb
  | cons c text ih =>
    rw [fgetsFrom] at h
    split at h
    · rcases List.mem_cons.mp h with rfl | h
      · rw [List.mem_reverse, List.mem_cons] at hb
        exact hb.imp_left fun hbc => List.mem_cons.mpr (Or.inl hbc)
      · exact Or.inl (List.mem_cons_of_mem _ ((ih h).resolve_right List.not_mem_nil))
    · rcases ih h with htext | hacc
      · exact Or.inl (List.mem_cons_of_mem _ htext)
      · exact (List.mem_cons.mp hacc).imp_left fun hbc => List.mem_cons.mpr (Or.inl hbc)

theorem IsBlank.trim_eq {l : CStr} (h : IsBlank l) : trim l = [] := by
  rw [trim, List.dropWhile_eq_nil_iff.mpr h]
  rfl

theorem IsBlank.cstr {l : CStr} (h : IsBlank l) : IsBlank (cstr l) := fun b hb =>
  h b ((List.takeWhile_sublist _).subset hb)

/-- Blank text holds no setting, in however many blocks it is read. -/
theorem IsBlank.settings_eq {text : List UInt8} (h : IsBlank text) : settings text = [] := by
  rw [settings, List.filterMap_eq_nil_iff]
  intro trimmed hmem
  obtain ⟨block, hblock, rfl⟩ := List.mem_map.mp hmem
  have hblank : IsBlank block := fun b hb =>
    h b ((mem_of_mem_fgetsFrom hblock hb).resolve_right List.not_mem_nil)
  rw [trimWhitespace, hblank.cstr.trim_eq]
  rfl

theorem settings_append {before : List UInt8} (h : EndsLine before) (rest : List UInt8) :
    settings (before ++ rest) = settings before ++ settings rest := by
  rw [settings, readLines_append h, List.filterMap_append]
  rfl

/-- The newline at the end of a line is trimmed away, unless a NUL hides it. -/
theorem trim_cstr_newline (l : CStr) : trim (cstr (l ++ [newline])) = trim (cstr l) := by
  by_cases h : 0 ∈ l
  · obtain ⟨front, back, rfl⟩ := List.append_of_mem h
    rw [List.append_assoc, List.cons_append, cstr_append_zero, cstr_append_zero]
  · rw [cstr_eq_self h, cstr_eq_self (by simpa using ⟨h, by decide⟩), trim_concat (by decide)]

/-- The setting of a physical line. -/
def lineSetting? (l : CStr) : Option (CStr × CStr) := setting? (trim (cstr l))

theorem IsBlank.lineSetting? {l : CStr} (h : IsBlank l) : lineSetting? l = none := by
  rw [AdMQ.lineSetting?, h.cstr.trim_eq]
  rfl

/-- The settings are those of the physical lines, if all but the blank ones fit the buffer. -/
theorem settings_eq_filterMap (text : List UInt8)
    (hlines : ∀ l ∈ physicalLines text, IsBlank l ∨ l.length ≤ 510) :
    settings text = (physicalLines text).filterMap lineSetting? := by
  induction text using line_induction with
  | last l hl =>
    rw [physicalLines_last hl, List.forall_mem_singleton] at hlines
    rw [physicalLines_last hl]
    rcases hlines with h | h
    · rw [h.settings_eq, List.filterMap_cons_none h.lineSetting?, List.filterMap_nil]
    · rw [settings, readLines, fgets_last hl (by omega)]
      by_cases he : l = []
      · subst he
        rfl
      · rw [if_neg he]
        rfl
  | line l rest hl ih =>
    rw [physicalLines_line hl, List.forall_mem_cons] at hlines
    have hsplit : l ++ newline :: rest = (l ++ [newline]) ++ rest := by
      rw [List.append_assoc, List.singleton_append]
    have hone : settings (l ++ [newline]) = [l].filterMap lineSetting? := by
      rcases hlines.1 with h | h
      · have hline : IsBlank (l ++ [newline]) := by
          intro b hb
          rcases List.mem_append.mp hb with hb | hb
          · exact h b hb
          · obtain rfl := List.mem_singleton.mp hb
            decide
        rw [hline.settings_eq, List.filterMap_cons_none h.lineSetting?, List.filterMap_nil]
      · rw [settings, readLines, fgets_line hl (by omega) [], List.map_cons, trimWhitespace,
          trim_cstr_newline]
        rfl
    rw [physicalLines_line hl, hsplit, settings_append (Or.inr ⟨l, rfl⟩), ih hlines.2, hone,
      ← List.filterMap_append]
    rfl

/-- A filler holds no setting. -/
theorem IsFiller.lineSetting? {l : CStr} (h : IsFiller l) : lineSetting? l = none := by
  rcases h with h | ⟨-, b, hb, hhead⟩
  · exact h.lineSetting?
  · have hne : b ≠ 0 := by
      rintro rfl
      exact absurd hb (by decide)
    have htrim := head?_trim_cstr hhead hne []
    rw [List.append_nil] at htrim
    have hover : isPassedOver (trim (cstr l)) = true := by
      simp only [List.mem_cons, List.not_mem_nil, or_false] at hb
      rcases hb with rfl | rfl | rfl <;> simp [isPassedOver, isIgnored, isHeader, htrim]
    rw [AdMQ.lineSetting?, setting?, if_pos hover]

/-! ## A written setting -/

namespace IsKey

variable {key : CStr}

theorem isspace_eq (h : IsKey key) {b : UInt8} (hb : b ∈ key) : isspace b = false := by
  rcases h.name b hb with ⟨hlow, -⟩ | rfl
  · exact isspace_eq_false_of_lt (UInt8.lt_of_lt_of_le (by decide) hlow)
  · decide

theorem notMem (h : IsKey key) {b : UInt8} (hlow : ¬ 97 ≤ b) (hline : b ≠ byte '_') :
    b ∉ key := by
  intro hb
  rcases h.name b hb with ⟨hlow', -⟩ | rfl
  · exact hlow hlow'
  · exact hline rfl

end IsKey

theorem trim_eq_self {s : CStr} {b : UInt8} (hhead : ∀ c ∈ (s ++ [b]).head?, isspace c = false)
    (hb : isspace b = false) : trim (s ++ [b]) = s ++ [b] := by
  rw [trim, dropWhile_isspace_eq_self hhead, List.rdropWhile_concat_neg _ _ _ (by rw [hb]; decide)]

theorem IsKey.trim_eq {key : CStr} (h : IsKey key) : trim key = key := by
  have hword : ∀ b ∈ key, isspace b = false := fun b hb => h.isspace_eq hb
  obtain ⟨front, b, rfl⟩ := (List.eq_nil_or_concat' key).resolve_left h.ne_nil
  exact trim_eq_self (fun c hc => hword c (List.mem_of_mem_head? hc))
    (hword b (List.mem_append_right _ (List.mem_singleton_self b)))

/-- The parts of a written setting around its first `=`. -/
theorem keyValue?_settingLine {key : CStr} (hkey : IsKey key) (val : CStr) :
    keyValue? (settingLine (key, val)) = some (key, doubleMark :: (val ++ [doubleMark])) := by
  have hline : settingLine (key, val) =
      (key ++ [byte ' ']) ++ byte '=' :: byte ' ' :: (doubleMark :: val ++ [doubleMark]) := by
    have hmark : byte '"' = doubleMark := by decide
    simp [settingLine, ascii, hmark]
  have hfront : byte '=' ∉ key ++ [byte ' '] := by
    rw [List.mem_append, List.mem_singleton, not_or]
    exact ⟨hkey.notMem (by decide) (by decide), by decide⟩
  have hstop : ∀ c ∈ (byte '=' :: byte ' ' :: (doubleMark :: val ++ [doubleMark])).head?,
      (c != byte '=') = false := by
    intro c hc
    obtain rfl : byte '=' = c := by simpa using hc
    decide
  have hval : trim (byte ' ' :: (doubleMark :: val ++ [doubleMark])) =
      doubleMark :: val ++ [doubleMark] := by
    have hspace : trim (byte ' ' :: (doubleMark :: val ++ [doubleMark])) =
        trim (doubleMark :: val ++ [doubleMark]) := by
      rw [trim, List.dropWhile_cons_of_pos (by decide), trim]
    rw [hspace]
    refine trim_eq_self (fun c hc => ?_) (by decide)
    obtain rfl : doubleMark = c := by simpa using hc
    decide
  have hmem : byte '=' ∈ settingLine (key, val) := by
    rw [hline]
    exact List.mem_append_right _ (List.mem_cons_self ..)
  rw [keyValue?, if_pos hmem, hline, takeWhile_append_stop (bne_of_notMem hfront) hstop,
    List.dropWhile_append_of_pos (bne_of_notMem hfront), List.dropWhile_cons_of_neg (by simp)]
  simp only [trimWhitespace, List.drop_one, List.tail_cons]
  rw [trim_concat (by decide), hkey.trim_eq, hval, List.cons_append]

theorem stripQuotes_quoted (val : CStr) :
    stripQuotes (doubleMark :: (val ++ [doubleMark])) = val := by
  have hlast : (doubleMark :: (val ++ [doubleMark])).getLast? = some doubleMark := by
    rw [← List.cons_append, List.getLast?_concat]
  rw [stripQuotes, if_pos ⟨rfl, hlast⟩, ← List.cons_append, List.dropLast_concat, List.tail_cons]

/-- A written setting is read as the key and the value. -/
theorem lineSetting?_settingLine {key val : CStr} (hkey : IsKey key) (hval : 0 ∉ val) :
    lineSetting? (settingLine (key, val)) = some (key, val) := by
  obtain ⟨b, rest, rfl⟩ := List.exists_cons_of_ne_nil hkey.ne_nil
  have hfirst : b ∈ b :: rest := List.mem_cons_self ..
  have hnul : 0 ∉ settingLine (b :: rest, val) := by
    simp only [settingLine, List.mem_append, not_or]
    exact ⟨⟨⟨hkey.notMem (by decide) (by decide), by decide⟩, hval⟩, by decide⟩
  have htrim : trim (settingLine (b :: rest, val)) = settingLine (b :: rest, val) := by
    refine trim_eq_self (fun c hc => ?_) (by decide)
    obtain rfl : b = c := by simpa using hc
    exact hkey.isspace_eq hfirst
  have hover : isPassedOver (settingLine (b :: rest, val)) = false := by
    have hne {c : UInt8} (hlow : ¬ 97 ≤ c) (hline : c ≠ byte '_') : b ≠ c := by
      rintro rfl
      exact hkey.notMem hlow hline hfirst
    simp [isPassedOver, isIgnored, isHeader, settingLine,
      hne (c := byte ';') (by decide) (by decide), hne (c := byte '#') (by decide) (by decide),
      hne (c := byte '[') (by decide) (by decide)]
  rw [lineSetting?, cstr_eq_self hnul, htrim, setting?, if_neg (by rw [hover]; decide),
    keyValue?_settingLine hkey, Option.map_some, stripQuotes_quoted]

/-- The settings of a text are the ones that were written. -/
theorem Interspersed.settings_perm {text : List UInt8} {entries : List (CStr × CStr)}
    (h : Interspersed text entries) (hkeys : ∀ e ∈ entries, IsKey e.1 ∧ 0 ∉ e.2)
    (hlen : ∀ e ∈ entries, (settingLine e).length ≤ 510) : (settings text).Perm entries := by
  obtain ⟨fillers, hfillers, hperm⟩ := h
  have hlines : ∀ l ∈ physicalLines text, IsBlank l ∨ l.length ≤ 510 := by
    intro l hl
    rcases List.mem_append.mp (hperm.subset hl) with hl | hl
    · obtain ⟨e, he, rfl⟩ := List.mem_map.mp hl
      exact Or.inr (hlen e he)
    · exact (hfillers l hl).imp_right And.left
  have hnone : fillers.filterMap lineSetting? = [] :=
    List.filterMap_eq_nil_iff.mpr fun l hl => (hfillers l hl).lineSetting?
  have hsome : (entries.map settingLine).filterMap lineSetting? = entries := by
    rw [List.filterMap_map]
    refine (List.filterMap_congr fun e he => ?_).trans List.filterMap_some
    exact lineSetting?_settingLine (hkeys e he).1 (hkeys e he).2
  rw [settings_eq_filterMap text hlines]
  have hmap := hperm.filterMap lineSetting?
  rwa [List.filterMap_append, hsome, hnone, List.append_nil] at hmap

/-- Each key has the value that was written for it. -/
theorem lastValue_of_perm {found entries : List (CStr × CStr)} (h : found.Perm entries)
    (hkeys : (entries.map Prod.fst).Nodup) {e : CStr × CStr} (he : e ∈ entries) :
    lastValue e.1 found = some e.2 := by
  have hone : (entries.filter fun e' => decide (e'.1 = e.1)) = [e] := by
    obtain ⟨front, back, rfl⟩ := List.append_of_mem he
    simp only [List.map_append, List.map_cons, List.nodup_append, List.nodup_cons] at hkeys
    have hfront : (front.filter fun e' => decide (e'.1 = e.1)) = [] := by
      rw [List.filter_eq_nil_iff]
      intro e' he' hsame
      exact hkeys.2.2 e'.1 (List.mem_map_of_mem he') e.1 (List.mem_cons_self ..)
        (of_decide_eq_true hsame)
    have hback : (back.filter fun e' => decide (e'.1 = e.1)) = [] := by
      rw [List.filter_eq_nil_iff]
      intro e' he' hsame
      exact hkeys.2.1.1 (of_decide_eq_true hsame ▸ List.mem_map_of_mem he')
    simp [List.filter_append, hfront, hback]
  have hfound := h.filter fun e' => decide (e'.1 = e.1)
  rw [hone, List.perm_singleton] at hfound
  rw [lastValue, hfound]
  rfl

/-! ## Configurations -/

/-- What a string field may hold: no NUL, no newline, and one byte less than is copied. -/
structure IsValue (size : Nat) (val : CStr) : Prop where
  nul_notMem : 0 ∉ val
  newline_notMem : newline ∉ val
  length_lt : val.length < size

/-- An `int` that is not negative. -/
def IsPort (n : Int) : Prop := 0 ≤ n ∧ n ≤ intMax

instance (n : Int) : Decidable (IsPort n) := inferInstanceAs (Decidable (_ ∧ _))

/-- The values of a `BrokerConfig`. -/
structure BrokerSettings where
  vaultPort : Int
  lobbyPort : Int
  certPath : CStr
  keyPath : CStr
  caPath : CStr
  dbPath : CStr

structure BrokerSettings.Writable (s : BrokerSettings) : Prop where
  vaultPort : IsPort s.vaultPort
  lobbyPort : IsPort s.lobbyPort
  certPath : IsValue 255 s.certPath
  keyPath : IsValue 255 s.keyPath
  caPath : IsValue 255 s.caPath
  dbPath : IsValue 255 s.dbPath

/-- Each field with its key. -/
def BrokerSettings.entries (s : BrokerSettings) : List (CStr × CStr) :=
  [(ascii "vault_port", decimal s.vaultPort), (ascii "lobby_port", decimal s.lobbyPort),
    (ascii "cert_path", s.certPath), (ascii "key_path", s.keyPath), (ascii "ca_path", s.caPath),
    (ascii "db_path", s.dbPath)]

/-- The configuration has these values, in terminated strings. -/
structure BrokerConfig.Shows (c : BrokerConfig) (s : BrokerSettings) : Prop where
  vaultPort : c.vaultPort = s.vaultPort
  lobbyPort : c.lobbyPort = s.lobbyPort
  certPath : c.certPath.Holds s.certPath
  keyPath : c.keyPath.Holds s.keyPath
  caPath : c.caPath.Holds s.caPath
  dbPath : c.dbPath.Holds s.dbPath

/-- The values of an `AgentConfig`. -/
structure AgentSettings where
  brokerIp : CStr
  brokerPort : Int
  certPath : CStr
  keyPath : CStr
  caPath : CStr
  commandGroup : CStr
  actionDir : CStr

structure AgentSettings.Writable (s : AgentSettings) : Prop where
  brokerIp : IsValue 63 s.brokerIp
  brokerPort : IsPort s.brokerPort
  certPath : IsValue 255 s.certPath
  keyPath : IsValue 255 s.keyPath
  caPath : IsValue 255 s.caPath
  commandGroup : IsValue 63 s.commandGroup
  actionDir : IsValue 255 s.actionDir

def AgentSettings.entries (s : AgentSettings) : List (CStr × CStr) :=
  [(ascii "broker_ip", s.brokerIp), (ascii "broker_port", decimal s.brokerPort),
    (ascii "cert_path", s.certPath), (ascii "key_path", s.keyPath), (ascii "ca_path", s.caPath),
    (ascii "command_group", s.commandGroup), (ascii "action_dir", s.actionDir)]

structure AgentConfig.Shows (c : AgentConfig) (s : AgentSettings) : Prop where
  brokerIp : c.brokerIp.Holds s.brokerIp
  brokerPort : c.brokerPort = s.brokerPort
  certPath : c.certPath.Holds s.certPath
  keyPath : c.keyPath.Holds s.keyPath
  caPath : c.caPath.Holds s.caPath
  commandGroup : c.commandGroup.Holds s.commandGroup
  actionDir : c.actionDir.Holds s.actionDir

/-- Settings that can be written, each on a line of its own and with a key of its own. -/
structure AreEntries (entries : List (CStr × CStr)) : Prop where
  key : ∀ k ∈ entries.map Prod.fst, IsKey k ∧ k.length ≤ 13
  nodup : (entries.map Prod.fst).Nodup
  value : ∀ v ∈ entries.map Prod.snd, IsValue 255 v

/-- The value that a text of settings gives to a key. -/
theorem Interspersed.lastValue {text : List UInt8} {entries : List (CStr × CStr)}
    (h : Interspersed text entries) (hentries : AreEntries entries) {e : CStr × CStr}
    (he : e ∈ entries) : lastValue e.1 (settings text) = some e.2 := by
  have hsep : (ascii " = \"").length = 4 := by decide
  have hmark : (ascii "\"").length = 1 := by decide
  refine lastValue_of_perm (h.settings_perm (fun e he => ?_) fun e he => ?_) hentries.nodup he
  · exact ⟨(hentries.key e.1 (List.mem_map_of_mem he)).1,
      (hentries.value e.2 (List.mem_map_of_mem he)).nul_notMem⟩
  · have hkey := (hentries.key e.1 (List.mem_map_of_mem he)).2
    have hval := (hentries.value e.2 (List.mem_map_of_mem he)).length_lt
    simp only [settingLine, List.length_append, hsep, hmark]
    omega

/-- An array field holds the value that was written for it. -/
theorem StringField.Assigned.holds {σ : Type} {f : StringField σ}
    {assign : σ → CStr → CStr → σ} {defaults : σ → σ} (h : f.Assigned assign defaults)
    {text : List UInt8} {val : CStr} (hval : IsValue f.size val)
    (hlast : AdMQ.lastValue f.key (settings text) = some val) (c : σ) :
    (f.get (loadSettings assign (defaults c) (some text)).2).Holds val := by
  have hsource : settingOr f.key f.default (some text) = val := by
    change (AdMQ.lastValue f.key (settings text)).getD f.default = val
    rw [hlast]
    rfl
  rw [h.get_load, hsource]
  exact CharArray.holds_copy _ hval.nul_notMem hval.length_lt

/-- A number field has the number that was written for it. -/
theorem NumberField.Assigned.eq {σ : Type} {f : NumberField σ}
    {assign : σ → CStr → CStr → σ} {defaults : σ → σ} (h : f.Assigned assign defaults)
    {text : List UInt8} {n : Int} (hn : IsPort n)
    (hlast : AdMQ.lastValue f.key (settings text) = some (decimal n)) (c : σ) :
    f.get (loadSettings assign (defaults c) (some text)).2 = n := by
  obtain ⟨m, rfl⟩ := Int.eq_ofNat_of_zero_le hn.1
  have hm : m ≤ intMax := Int.ofNat_le.mp hn.2
  have hnumber : (AdMQ.lastValue f.key (fileSettings (some text))).map atoi = some (m : Int) := by
    change (AdMQ.lastValue f.key (settings text)).map atoi = some (m : Int)
    rw [hlast, Option.map_some, atoi_decimal hm]
  rw [h.get_load, hnumber]
  rfl

theorem IsPort.isValue {n : Int} (h : IsPort n) : IsValue 255 (decimal n) := by
  obtain ⟨m, rfl⟩ := Int.eq_ofNat_of_zero_le h.1
  have hdigit : ∀ b ∈ decimal (m : Int), isdigit b = true := fun b hb => isdigit_of_mem_toDigits hb
  have hlen : (decimal (m : Int)).length ≤ 10 := length_decimal_le (Int.ofNat_le.mp h.2)
  exact ⟨fun hb => absurd (hdigit _ hb) (by decide), fun hb => absurd (hdigit _ hb) (by decide),
    by omega⟩

theorem IsValue.mono {m n : Nat} {val : CStr} (h : IsValue m val) (hle : m ≤ n) : IsValue n val :=
  ⟨h.nul_notMem, h.newline_notMem, h.length_lt.trans_le hle⟩

theorem BrokerSettings.Writable.areEntries {s : BrokerSettings} (h : s.Writable) :
    AreEntries s.entries where
  key := by
    change ∀ k ∈ [ascii "vault_port", ascii "lobby_port", ascii "cert_path", ascii "key_path",
      ascii "ca_path", ascii "db_path"], _
    decide
  nodup := by
    change [ascii "vault_port", ascii "lobby_port", ascii "cert_path", ascii "key_path",
      ascii "ca_path", ascii "db_path"].Nodup
    decide
  value := by
    simp only [entries, List.map_cons, List.map_nil, List.forall_mem_cons]
    exact ⟨h.vaultPort.isValue, h.lobbyPort.isValue, h.certPath, h.keyPath, h.caPath, h.dbPath,
      List.forall_mem_nil _⟩

theorem AgentSettings.Writable.areEntries {s : AgentSettings} (h : s.Writable) :
    AreEntries s.entries where
  key := by
    change ∀ k ∈ [ascii "broker_ip", ascii "broker_port", ascii "cert_path", ascii "key_path",
      ascii "ca_path", ascii "command_group", ascii "action_dir"], _
    decide
  nodup := by
    change [ascii "broker_ip", ascii "broker_port", ascii "cert_path", ascii "key_path",
      ascii "ca_path", ascii "command_group", ascii "action_dir"].Nodup
    decide
  value := by
    simp only [entries, List.map_cons, List.map_nil, List.forall_mem_cons]
    exact ⟨h.brokerIp.mono (by decide), h.brokerPort.isValue, h.certPath, h.keyPath, h.caPath,
      h.commandGroup.mono (by decide), h.actionDir, List.forall_mem_nil _⟩

/-- The broker's configuration survives being written and loaded. -/
theorem configLoad_shows {s : BrokerSettings} (hs : s.Writable) {text : List UInt8}
    (htext : Interspersed text s.entries) (storage : BrokerConfig) :
    (configLoad (some text) storage).2.Shows s := by
  have hstring {f : StringField BrokerConfig} (hf : f ∈ brokerStrings) {val : CStr}
      (hval : IsValue f.size val) (he : (f.key, val) ∈ s.entries) :
      (f.get (configLoad (some text) storage).2).Holds val :=
    (brokerStrings_assigned f hf).holds hval (htext.lastValue hs.areEntries he) storage
  have hnumber {f : NumberField BrokerConfig} (hf : f ∈ brokerNumbers) {n : Int}
      (hn : IsPort n) (he : (f.key, decimal n) ∈ s.entries) :
      f.get (configLoad (some text) storage).2 = n :=
    (brokerNumbers_assigned f hf).eq hn (htext.lastValue hs.areEntries he) storage
  exact
    { vaultPort := hnumber (.head _) hs.vaultPort (.head _)
      lobbyPort := hnumber (.tail _ (.head _)) hs.lobbyPort (.tail _ (.head _))
      certPath := hstring (.head _) hs.certPath (.tail _ (.tail _ (.head _)))
      keyPath := hstring (.tail _ (.head _)) hs.keyPath (.tail _ (.tail _ (.tail _ (.head _))))
      caPath := hstring (.tail _ (.tail _ (.head _))) hs.caPath
        (.tail _ (.tail _ (.tail _ (.tail _ (.head _)))))
      dbPath := hstring (.tail _ (.tail _ (.tail _ (.head _)))) hs.dbPath
        (.tail _ (.tail _ (.tail _ (.tail _ (.tail _ (.head _)))))) }

/-- So does the agent's. -/
theorem agentConfigLoad_shows {s : AgentSettings} (hs : s.Writable) {text : List UInt8}
    (htext : Interspersed text s.entries) (storage : AgentConfig) :
    (agentConfigLoad (some text) storage).2.Shows s := by
  have hstring {f : StringField AgentConfig} (hf : f ∈ agentStrings) {val : CStr}
      (hval : IsValue f.size val) (he : (f.key, val) ∈ s.entries) :
      (f.get (agentConfigLoad (some text) storage).2).Holds val :=
    (agentStrings_assigned f hf).holds hval (htext.lastValue hs.areEntries he) storage
  have hport : AgentConfig.brokerPort (agentConfigLoad (some text) storage).2 = s.brokerPort :=
    (agentNumbers_assigned _ (.head _)).eq hs.brokerPort
      (htext.lastValue hs.areEntries (.tail _ (.head _))) storage
  exact
    { brokerIp := hstring (.head _) hs.brokerIp (.head _)
      brokerPort := hport
      certPath := hstring (.tail _ (.head _)) hs.certPath (.tail _ (.tail _ (.head _)))
      keyPath := hstring (.tail _ (.tail _ (.head _))) hs.keyPath
        (.tail _ (.tail _ (.tail _ (.head _))))
      caPath := hstring (.tail _ (.tail _ (.tail _ (.head _)))) hs.caPath
        (.tail _ (.tail _ (.tail _ (.tail _ (.head _)))))
      commandGroup := hstring (.tail _ (.tail _ (.tail _ (.tail _ (.head _))))) hs.commandGroup
        (.tail _ (.tail _ (.tail _ (.tail _ (.tail _ (.head _))))))
      actionDir := hstring (.tail _ (.tail _ (.tail _ (.tail _ (.tail _ (.head _)))))) hs.actionDir
        (.tail _ (.tail _ (.tail _ (.tail _ (.tail _ (.tail _ (.head _))))))) }

/-- Both configurations are reproduced by loading any text in which they are written. -/
theorem config_roundTrip :
    (∀ s : BrokerSettings, s.Writable → ∀ text, Interspersed text s.entries →
      ∀ storage, (configLoad (some text) storage).1 = true ∧
        (configLoad (some text) storage).2.Shows s) ∧
    ∀ s : AgentSettings, s.Writable → ∀ text, Interspersed text s.entries →
      ∀ storage, (agentConfigLoad (some text) storage).1 = true ∧
        (agentConfigLoad (some text) storage).2.Shows s :=
  ⟨fun _ hs _ htext storage => ⟨rfl, configLoad_shows hs htext storage⟩,
    fun _ hs _ htext storage => ⟨rfl, agentConfigLoad_shows hs htext storage⟩⟩

/-- Values with blanks, equals signs and quotes of their own. -/
def oddSettings : BrokerSettings :=
  ⟨0, 35566, ascii " a=b ", ascii "\"", [], ascii "x\"y;[z]"⟩

def oddText : List UInt8 :=
  ascii ("[broker]\nkey_path = \"\"\"\ndb_path = \"x\"y;[z]\"\n; ports\nlobby_port = \"35566\"\n" ++
    "vault_port = \"0\"\n\t\ncert_path = \" a=b \"\nca_path = \"\"")

theorem oddText_interspersed : Interspersed oddText oddSettings.entries := by
  refine ⟨[ascii "[broker]", ascii "; ports", ascii "\t"], ?_, by decide +kernel⟩
  simp only [List.forall_mem_cons]
  exact ⟨Or.inr ⟨by decide, byte '[', .head _, by decide⟩,
    Or.inr ⟨by decide, byte ';', .tail _ (.head _), by decide⟩, Or.inl (by decide),
    List.forall_mem_nil _⟩

theorem config_roundTrip_odd :
    (configLoad (some oddText) ⟨7, 7, .filled 255 9, .filled 255 9, .filled 255 9,
      .filled 255 9⟩).2.Shows oddSettings :=
  have hvalue (val : CStr) (h : 0 ∉ val ∧ newline ∉ val ∧ val.length < 255) : IsValue 255 val :=
    ⟨h.1, h.2.1, h.2.2⟩
  (config_roundTrip.1 oddSettings
    ⟨by decide, by decide, hvalue _ (by decide), hvalue _ (by decide), hvalue _ (by decide),
      hvalue _ (by decide)⟩ oddText oddText_interspersed _).2

end AdMQ
