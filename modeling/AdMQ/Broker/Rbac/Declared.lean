import AdMQ.Broker.Rbac.Isolation

/-!
# The policy a file declares

The declarative reading of a policy file works on its physical lines and knows
neither buffers nor tables: mappings in file order select a role name, the
first section of that name decides, and in it the last line for a key counts.
Within the limits of the loader the permission checks answer exactly as this
reading does.
-/

namespace AdMQ

open Core

/-- The `key = value` lines of a section. -/
def Section.entries (s : Section) : List (CStr × CStr) := s.body.filterMap keyValue?

/-- The role sections in file order, each with its name and its entries. -/
def declaredRoles (text : List UInt8) : List (CStr × List (CStr × CStr)) :=
  (declaredSections text).filterMap fun s =>
    (roleHeader? s.header).map fun name => (name, s.entries)

/-- The mappings of all map sections in file order: pattern and role name. -/
def declaredMappings (text : List UInt8) : List (CStr × CStr) :=
  ((declaredSections text).filter fun s =>
    decide (s.header = ascii "[map]")).flatMap Section.entries

/-- A pattern matches itself, and with a final star everything that begins with the rest. -/
def PatternMatches (pattern host : CStr) : Prop :=
  pattern = host ∨ (pattern.getLast? = some (byte '*') ∧ pattern.dropLast <+: host)

instance (pattern host : CStr) : Decidable (PatternMatches pattern host) :=
  inferInstanceAs (Decidable (_ ∨ _))

/-- The role name of the first matching mapping, or the default role. -/
def declaredRoleName (text : List UInt8) (host : CStr) : CStr :=
  match (declaredMappings text).find? fun m => decide (PatternMatches m.1 host) with
  | some m => m.2
  | none => ascii "DEFAULT"

/-- The comma-separated items of a value, trimmed; a blank piece is no item. -/
def listItems (val : CStr) : List CStr :=
  ((val.splitOn (byte ',')).map trimWhitespace).filter (· ≠ [])

/-- The declared policy grants a topic (or key) to a host under a permission keyword. -/
def PolicyGrants (text : List UInt8) (keyword host topic : CStr) : Prop :=
  ∃ role, (declaredRoles text).find? (fun r => decide (r.1 = declaredRoleName text host)) =
      some role ∧
    ∃ val, lastValue keyword role.2 = some val ∧
      (ascii "*" ∈ listItems val ∨ topic ∈ listItems val)

/-- The limits of the loader, in terms of the declared policy. -/
structure WithinLimits (text : List UInt8) : Prop where
  /-- Every physical line fits the line buffer with its newline. -/
  lines : ∀ l ∈ physicalLines text, l.length ≤ 510
  /-- The text holds no NUL. -/
  noNul : 0 ∉ text
  /-- Every header opens a role or the map. -/
  headers : ∀ s ∈ declaredSections text,
    (roleHeader? s.header).isSome = true ∨ s.header = ascii "[map]"
  /-- The role table has room for every role section. -/
  roles : (declaredRoles text).length ≤ 20
  /-- Role names fit their field. -/
  roleNames : ∀ r ∈ declaredRoles text, r.1.length ≤ 63
  /-- The mapping table has room for every mapping. -/
  mappings : (declaredMappings text).length ≤ 50
  /-- Patterns are not empty, and mappings fit their fields. -/
  mappingFields : ∀ m ∈ declaredMappings text,
    1 ≤ m.1.length ∧ m.1.length ≤ 127 ∧ m.2.length ≤ 63
  /-- Permission lists fit their arrays. -/
  lists : ∀ r ∈ declaredRoles text, ∀ e ∈ r.2,
    e.1 ∈ [ascii "SUBSCRIBE", ascii "PUBLISH", ascii "SET"] →
      (listItems e.2).length ≤ 20 ∧ ∀ item ∈ listItems e.2, item.length ≤ 63

/-! ## Reading lines -/

/-- Blank lines are not significant. -/
theorem significant_filter (lines : List CStr) :
    significant (lines.filter (· ≠ [])) = significant lines := by
  rw [significant, List.filter_filter]
  refine List.filter_congr fun l _ => ?_
  cases l with
  | nil => rfl
  | cons b l => simp

/-- Within the line length the loader reads exactly the physical lines. -/
theorem significant_readLines (text : List UInt8)
    (hlines : ∀ l ∈ physicalLines text, l.length ≤ 510)
    (hnul : 0 ∉ text) :
    significant (readLines text) = significant ((physicalLines text).map trimWhitespace) := by
  rw [← significant_filter, filter_readLines text hlines hnul, significant_filter]

/-- Hence its sections are the declared ones. -/
theorem WithinLimits.sections {text : List UInt8} (h : WithinLimits text) :
    sectionsOf text = declaredSections text := by
  rw [sectionsOf, significant_readLines text h.lines h.noNul, declaredSections]

/-! ## The role table -/

/-- The sections with a role header. -/
def roleSections (sections : List Section) : List Section :=
  sections.filter fun s => (roleHeader? s.header).isSome

/-- No more roles are stored than there are role headers. -/
theorem length_ownRoles_le (sections : List Section) :
    (ownRoles sections).length ≤ (roleSections sections).length := by
  induction sections using List.reverseRecOn with
  | nil => simp [ownRoles]
  | append_singleton init s ih =>
    have hown : ownRoles (init ++ [s]) = ownStep (ownRoles init) s := by simp [ownRoles]
    rw [hown, roleSections, List.filter_append, List.length_append, ← roleSections, ownStep]
    split
    · next hk =>
      obtain ⟨name, hn, -⟩ := (headerKind_role_iff _ _).mp hk
      simp [hn, ih]
    · omega

/-- While they fit the table, every role section is stored. -/
theorem ownRoles_eq_roleSections (sections : List Section)
    (h : (roleSections sections).length ≤ maxRoles) :
    ownRoles sections = roleSections sections := by
  induction sections using List.reverseRecOn with
  | nil => rfl
  | append_singleton init s ih =>
    have hown : ownRoles (init ++ [s]) = ownStep (ownRoles init) s := by simp [ownRoles]
    have happ : roleSections (init ++ [s]) = roleSections init ++ roleSections [s] :=
      List.filter_append ..
    rw [happ, List.length_append] at h
    rw [hown, happ, ownStep, ih (by omega)]
    cases hn : roleHeader? s.header with
    | none =>
      have hk : headerKind (roleSections init).length s.header ≠ .role := by
        rw [Ne, headerKind_role_iff]
        simp [hn]
      rw [if_neg hk]
      simp [roleSections, hn]
    | some name =>
      have hk : headerKind (roleSections init).length s.header = .role := by
        rw [headerKind_role_iff]
        refine ⟨name, hn, ?_⟩
        have hone : (roleSections [s]).length = 1 := by simp [roleSections, hn]
        omega
      rw [if_pos hk]
      simp [roleSections, hn]

/-- Text of known headers only, within the capacity, has no stray header. -/
theorem noStrayHeader_of_known {sections : List Section}
    (hknown : ∀ s ∈ sections, (roleHeader? s.header).isSome = true ∨ s.header = ascii "[map]")
    (h : (roleSections sections).length ≤ maxRoles) :
    NoStrayHeader (sections.map Section.header) := by
  intro before ah bh after hh hka hkb
  obtain ⟨s₁, s₂, hs, rfl, hs₂⟩ := List.map_eq_append_iff.mp hh
  obtain ⟨a, s₃, rfl, rfl, hs₃⟩ := List.map_eq_cons_iff.mp hs₂
  obtain ⟨b, s₄, rfl, rfl, -⟩ := List.map_eq_cons_iff.mp hs₃
  obtain ⟨name, hn, -⟩ := (headerKind_role_iff _ _).mp hka
  rcases hknown b (by simp [hs]) with hb | hb
  · -- Both headers count, so the table still has room at the second one.
    have hle := length_ownRoles_le s₁
    rw [length_ownRoles] at hle
    have hroom : rolesStored (s₁.map Section.header) + 1 < maxRoles := by
      simp [hs, roleSections, hn, hb] at h hle
      omega
    obtain ⟨name', hn'⟩ := Option.isSome_iff_exists.mp hb
    rw [(headerKind_role_iff _ _).mpr ⟨name', hn', hroom⟩] at hkb
    cases hkb
  · rw [hb, headerKind_map] at hkb
    cases hkb

/-- Each role section contributes one declared role. -/
theorem declaredRoles_eq (text : List UInt8) :
    declaredRoles text = (roleSections (declaredSections text)).map fun s =>
      ((roleHeader? s.header).getD [], s.entries) := by
  rw [declaredRoles, roleSections]
  induction declaredSections text with
  | nil => rfl
  | cons s ss ih => cases hn : roleHeader? s.header <;> simp [hn, ih]

theorem WithinLimits.length_roleSections {text : List UInt8} (h : WithinLimits text) :
    (roleSections (declaredSections text)).length ≤ maxRoles := by
  have hr := h.roles
  rw [declaredRoles_eq, List.length_map] at hr
  exact hr

/-- Within the limits the role table is the list of roles that the sections declare. -/
theorem WithinLimits.roles_live {text : List UInt8} (h : WithinLimits text) :
    (loadPolicy text).roles.live = (roleSections (declaredSections text)).map Section.role := by
  have hlen := h.length_roleSections
  have hno := noStrayHeader_of_known h.headers hlen
  rw [loadPolicy_eq_sections, h.sections, ← ownRoles_eq_roleSections _ hlen]
  exact (foldl_section_of_noStray _ hno).1

/-! ## The mapping table -/

/-- A declared mapping as the table stores it. -/
def Mapping.ofEntry (e : CStr × CStr) : Mapping := ⟨e.1.take 127, e.2.take 63⟩

/-- The entries of the map sections among some sections. -/
def mapEntries (sections : List Section) : List (CStr × CStr) :=
  (sections.filter fun s => decide (s.header = ascii "[map]")).flatMap Section.entries

/-- In the map every key line adds one mapping, while there is room. -/
theorem Loader.keyLines_mappings (lines : List CStr) {l : Loader} (hm : l.parsingMap = true)
    (hroom : l.policy.mappings.live.length + (lines.filterMap keyValue?).length ≤ maxMappings) :
    (lines.foldl Loader.keyLine l).policy.mappings.live =
      l.policy.mappings.live ++ (lines.filterMap keyValue?).map Mapping.ofEntry := by
  induction lines generalizing l with
  | nil => simp
  | cons x xs ih =>
    rw [List.foldl_cons]
    cases hx : keyValue? x with
    | none =>
      have hid : l.keyLine x = l := by simp [Loader.keyLine, hx]
      rw [List.filterMap_cons_none hx] at hroom ⊢
      rw [hid, ih hm hroom]
    | some e =>
      rw [List.filterMap_cons_some hx, List.length_cons, Slots.length_live] at hroom
      have hlt : l.policy.mappings.count < maxMappings := by omega
      have hstep : (l.keyLine x).policy.mappings = l.policy.mappings.push (Mapping.ofEntry e) hlt ∧
          (l.keyLine x).parsingMap = true := by
        simp [Loader.keyLine, hx, hm, hlt, Mapping.ofEntry]
      rw [ih hstep.2 (by rw [hstep.1, Slots.length_live, Slots.count_push]; omega), hstep.1,
        List.filterMap_cons_some hx]
      simp

/-- The mapping table after sections with known headers holds the entries of the maps. -/
theorem foldl_section_mappings (sections : List Section)
    (hknown : ∀ s ∈ sections, (roleHeader? s.header).isSome = true ∨ s.header = ascii "[map]")
    (hroles : (roleSections sections).length ≤ maxRoles)
    (hmaps : (mapEntries sections).length ≤ maxMappings) :
    (sections.foldl Loader.section .start).policy.mappings.live =
      (mapEntries sections).map Mapping.ofEntry := by
  induction sections using List.reverseRecOn with
  | nil => simp [Loader.start, Policy.empty, mapEntries]
  | append_singleton init s ih =>
    have hr : roleSections (init ++ [s]) = roleSections init ++ roleSections [s] :=
      List.filter_append ..
    have hmp : mapEntries (init ++ [s]) = mapEntries init ++ mapEntries [s] := by
      simp [mapEntries]
    rw [hr, List.length_append] at hroles
    rw [hmp, List.length_append] at hmaps
    have hinit := ih (fun t ht => hknown t (by simp [ht])) (by omega) (by omega)
    rw [List.foldl_append, List.foldl_cons, List.foldl_nil, hmp, List.map_append, ← hinit]
    rcases hknown s (by simp) with hs | hs
    · -- A role section is accepted, and its key lines go to the role.
      obtain ⟨name, hn⟩ := Option.isSome_iff_exists.mp hs
      have hcount := Loader.count_sections init .start
      change _ = rolesStored (init.map Section.header) at hcount
      have hle := length_ownRoles_le init
      have hone : (roleSections [s]).length = 1 := by simp [roleSections, hn]
      rw [length_ownRoles, ← hcount] at hle
      have hk := (headerKind_role_iff (init.foldl Loader.section .start).policy.roles.count
        s.header).mpr ⟨name, hn, by omega⟩
      have hne : s.header ≠ ascii "[map]" := by
        rintro he
        rw [he, roleHeader?_map] at hn
        cases hn
      rw [(Loader.section_role _ hk).2.2.1]
      simp [mapEntries, hne]
    · have hent : mapEntries [s] = s.body.filterMap keyValue? := by
        simp [mapEntries, hs, Section.entries]
      rw [hent] at hmaps ⊢
      rw [Loader.section, hs, Loader.header_map]
      refine Loader.keyLines_mappings s.body rfl ?_
      change (init.foldl Loader.section .start).policy.mappings.live.length + _ ≤ _
      rw [hinit, List.length_map]
      exact hmaps

/-- Within the limits the mapping table is the list of declared mappings. -/
theorem WithinLimits.mappings_live {text : List UInt8} (h : WithinLimits text) :
    (loadPolicy text).mappings.live =
      (declaredMappings text).map fun m => ⟨m.1, m.2⟩ := by
  have hl := foldl_section_mappings (declaredSections text) h.headers h.length_roleSections
    h.mappings
  rw [loadPolicy_eq_sections, h.sections]
  refine hl.trans (List.map_congr_left ?_)
  intro m hm
  obtain ⟨-, hp, hn⟩ := h.mappingFields m hm
  rw [Mapping.ofEntry, List.take_of_length_le hp, List.take_of_length_le hn]

/-! ## Choosing the role -/

/-- On a non-empty pattern the code's match is the declared one. -/
theorem matchPattern_eq {pattern : CStr} (hne : 1 ≤ pattern.length) (host : CStr) :
    matchPattern pattern host = decide (PatternMatches pattern host) := by
  obtain ⟨init, b, rfl⟩ := (List.eq_nil_or_concat' pattern).resolve_left
    (by rintro rfl; simp at hne)
  rw [Bool.eq_iff_iff, decide_eq_true_iff, PatternMatches, matchPattern]
  simp only [List.length_append, List.length_singleton, Nat.add_sub_cancel,
    List.getElem?_concat_length, List.getLast?_concat, List.dropLast_concat, List.take_left]
  rw [if_neg (by omega)]
  by_cases hstar : init ++ [b] = ascii "*"
  · -- The lone star has nothing left to compare.
    have hi : init = [] ∧ b = byte '*' := by
      have hlen := congrArg List.length hstar
      simp [ascii] at hlen
      subst hlen
      simpa [ascii] using hstar
    simp [hi.1, hi.2, ascii]
  · rw [if_neg hstar]
    by_cases hb : b = byte '*'
    · rw [if_pos (by rw [hb]), hb]
      have hpre : (init == host.take init.length) = true ↔ init <+: host := by
        rw [beq_iff_eq, List.prefix_iff_eq_take]
      rw [hpre]
      refine ⟨fun hp => Or.inr ⟨rfl, hp⟩, ?_⟩
      rintro (rfl | ⟨-, hp⟩)
      · exact List.prefix_append ..
      · exact hp
    · rw [if_neg (by simpa using hb)]
      simp [hb]

/-- The role name that the code looks for is the declared one. -/
theorem WithinLimits.targetRole_eq {text : List UInt8} (h : WithinLimits text) (host : CStr) :
    targetRole (loadPolicy text) host = declaredRoleName text host := by
  have hfields := h.mappingFields
  rw [targetRole, declaredRoleName, h.mappings_live]
  generalize declaredMappings text = maps at hfields
  induction maps with
  | nil => rfl
  | cons m ms ih =>
    obtain ⟨hne, -, hname⟩ := hfields m (List.mem_cons_self ..)
    have htail := ih fun m' hm' => hfields m' (List.mem_cons_of_mem _ hm')
    rw [List.map_cons, List.find?_cons, List.find?_cons, matchPattern_eq hne]
    by_cases hm : PatternMatches m.1 host
    · simp [hm, List.take_of_length_le hname]
    · simpa [hm] using htail

/-! ## Permission lists -/

/-- Neither an assignment nor a line changes the name of a role. -/
theorem Role.name_applyLine (r : Role) (line : CStr) : (r.applyLine line).name = r.name := by
  unfold Role.applyLine Role.assign
  split
  · rfl
  · repeat' split
    all_goals rfl

theorem Role.sub_assign (r : Role) (key val : CStr) :
    (r.assign key val).sub = if key = ascii "SUBSCRIBE" then parseList val r.sub else r.sub := by
  unfold Role.assign
  split
  · rfl
  · repeat' split
    all_goals rfl

theorem Role.pub_assign (r : Role) (key val : CStr) :
    (r.assign key val).pub = if key = ascii "PUBLISH" then parseList val r.pub else r.pub := by
  by_cases hk : key = ascii "PUBLISH"
  · subst hk
    rfl
  · rw [if_neg hk, Role.assign, if_neg hk]
    repeat' split
    all_goals rfl

theorem Role.set_assign (r : Role) (key val : CStr) :
    (r.assign key val).set = if key = ascii "SET" then parseList val r.set else r.set := by
  by_cases hk : key = ascii "SET"
  · subst hk
    rfl
  · rw [if_neg hk, Role.assign, if_neg hk]
    repeat' split
    all_goals rfl

theorem Section.name_role (s : Section) :
    s.role.name = ((roleHeader? s.header).getD []).take 63 := by
  have hfold (lines : List CStr) (r : Role) : (lines.foldl Role.applyLine r).name = r.name := by
    induction lines generalizing r with
    | nil => rfl
    | cons x xs ih => rw [List.foldl_cons, ih, Role.name_applyLine]
  rw [Section.role, hfold, Role.zero]

/-- The items that some tokens hold. -/
def tokenItems (tokens : List CStr) : List CStr := (tokens.map trimWhitespace).filter (· ≠ [])

theorem tokenItems_blank {token : CStr} (h : trimWhitespace token = []) (rest : List CStr) :
    tokenItems (token :: rest) = tokenItems rest := by
  simp [tokenItems, h]

theorem tokenItems_item {token : CStr} (h : trimWhitespace token ≠ []) (rest : List CStr) :
    tokenItems (token :: rest) = trimWhitespace token :: tokenItems rest := by
  simp [tokenItems, h]

/-- The items of a value are those of its tokens. -/
theorem listItems_eq_tokenItems (val : CStr) :
    listItems val = tokenItems (strtok (byte ',') val) := by
  change tokenItems (val.splitOn (byte ',')) = _
  rw [strtok]
  induction val.splitOn (byte ',') with
  | nil => rfl
  | cons x xs ih =>
    by_cases hx : x = []
    · rw [tokenItems_blank (by rw [hx]; rfl), ih, List.filter_cons_of_neg (by simp [hx])]
    · rw [List.filter_cons_of_pos (by simp [hx])]
      by_cases ht : trimWhitespace x = []
      · rw [tokenItems_blank ht, tokenItems_blank ht, ih]
      · rw [tokenItems_item ht, tokenItems_item ht, ih]

/-- What the loop of `parse_list` stores when the items fit. -/
theorem parseTokens_spec (tokens : List CStr) (p : Permission)
    (hroom : p.items.count + (tokenItems tokens).length ≤ maxItems)
    (hlen : ∀ item ∈ tokenItems tokens, item.length ≤ 63) :
    ((parseTokens tokens p).wildcard = true ↔
      p.wildcard = true ∨ ascii "*" ∈ tokenItems tokens) ∧
    (parseTokens tokens p).items.live =
      p.items.live ++ (tokenItems tokens).filter (· ≠ ascii "*") := by
  induction tokens generalizing p with
  | nil => simp [parseTokens, tokenItems]
  | cons x xs ih =>
    by_cases hx : trimWhitespace x = []
    · -- A blank token is passed over; the loop may also stop here, with no item left.
      rw [tokenItems_blank hx] at hroom hlen ⊢
      have hne : trimWhitespace x ≠ ascii "*" := by rw [hx]; decide
      rw [parseTokens]
      split
      · simp only [hx, List.length_nil, Nat.lt_irrefl, ite_false]
        rw [if_neg (by decide)]
        exact ih p hroom hlen
      · have hnil : tokenItems xs = [] := List.eq_nil_of_length_eq_zero (by omega)
        simp [hnil]
    · rw [tokenItems_item hx] at hroom hlen ⊢
      rw [List.length_cons] at hroom
      have hlt : p.items.count < maxItems := by omega
      have hrest : ∀ item ∈ tokenItems xs, item.length ≤ 63 :=
        fun item hi => hlen item (List.mem_cons_of_mem _ hi)
      rw [parseTokens, dif_pos hlt]
      by_cases hstar : trimWhitespace x = ascii "*"
      · obtain ⟨hw, hl⟩ := ih { p with wildcard := true } (by simp only; omega) hrest
        simp only [hstar, ite_true]
        exact ⟨by rw [hw]; simp, by rw [hl]; simp⟩
      · have hpos : 0 < (trimWhitespace x).length := List.length_pos_iff.mpr hx
        have htake := List.take_of_length_le (hlen _ (List.mem_cons_self ..))
        obtain ⟨hw, hl⟩ := ih { p with items := p.items.push (trimWhitespace x) hlt }
          (by simp only [Slots.count_push]; omega) hrest
        simp only [hstar, hpos, ite_true, ite_false, htake]
        exact ⟨by rw [hw]; simp [Ne.symm hstar], by rw [hl]; simp [hstar]⟩

/-- A parsed value that fits allows exactly its items, or everything under the star. -/
theorem parseList_allows {val : CStr} (hroom : (listItems val).length ≤ maxItems)
    (hlen : ∀ item ∈ listItems val, item.length ≤ 63) (p : Permission) (topic : CStr) :
    (parseList val p).allows topic = true ↔
      ascii "*" ∈ listItems val ∨ topic ∈ listItems val := by
  rw [listItems_eq_tokenItems] at hroom hlen ⊢
  obtain ⟨hw, hl⟩ := parseTokens_spec (strtok (byte ',') val) ⟨p.items.clear, false⟩
    (by simpa using hroom) hlen
  rw [Permission.allows_iff, parseList, hw, hl]
  by_cases ht : topic = ascii "*"
  · simp [ht]
  · simp [ht]

/-- An empty list allows nothing. -/
theorem Permission.zero_allows (topic : CStr) : Permission.zero.allows topic = false := by
  simp [Permission.allows, Permission.zero]

theorem lastValue_nil (key : CStr) : lastValue key [] = none := rfl

/-- The list that a section builds under a keyword is the one of its last line for it. -/
theorem Section.allows_iff (s : Section) {list : Role → Permission} {keyword : CStr}
    (hassign : ∀ r key val, list (Role.assign r key val) =
      if key = keyword then parseList val (list r) else list r)
    (hzero : ∀ name, list (Role.zero name) = .zero)
    (hfits : ∀ e ∈ s.entries, e.1 = keyword →
      (listItems e.2).length ≤ maxItems ∧ ∀ item ∈ listItems e.2, item.length ≤ 63)
    (topic : CStr) :
    (list s.role).allows topic = true ↔ ∃ val, lastValue keyword s.entries = some val ∧
      (ascii "*" ∈ listItems val ∨ topic ∈ listItems val) := by
  unfold Section.role Section.entries at *
  generalize ((roleHeader? s.header).getD []).take 63 = name
  generalize s.body = lines at *
  induction lines using List.reverseRecOn with
  | nil => simp [hzero, Permission.zero_allows, lastValue_nil]
  | append_singleton init l ih =>
    rw [List.foldl_append, List.foldl_cons, List.foldl_nil, Role.applyLine,
      List.filterMap_append]
    rw [List.filterMap_append] at hfits
    have ih' := ih fun e he => hfits e (List.mem_append_left _ he)
    cases hl : keyValue? l with
    | none => simpa [hl] using ih'
    | some e =>
      obtain ⟨key, val⟩ := e
      rw [List.filterMap_cons_some hl, List.filterMap_nil] at hfits ⊢
      rw [lastValue_concat, hassign]
      by_cases hk : key = keyword
      · obtain ⟨hroom, hlen⟩ := hfits (key, val) (by simp) hk
        simp [hk, parseList_allows hroom hlen]
      · simpa [hk] using ih'

/-! ## The checks -/

/-- Within the limits a check that scans one list answers as the declared policy does. -/
theorem WithinLimits.rbacCan_iff_grants {text : List UInt8} (h : WithinLimits text)
    {list : Role → Permission} {keyword : CStr}
    (hkey : keyword ∈ [ascii "SUBSCRIBE", ascii "PUBLISH", ascii "SET"])
    (hassign : ∀ r key val, list (Role.assign r key val) =
      if key = keyword then parseList val (list r) else list r)
    (hzero : ∀ name, list (Role.zero name) = .zero) (host topic : CStr) :
    rbacCan list (loadPolicy text) host topic = true ↔ PolicyGrants text keyword host topic := by
  have hnames := h.roleNames
  have hlists := h.lists
  rw [rbacCan_iff, PolicyGrants, getRole, h.roles_live, h.targetRole_eq]
  rw [declaredRoles_eq] at hnames hlists ⊢
  generalize declaredRoleName text host = name
  have hallows : ∀ s ∈ roleSections (declaredSections text), (list s.role).allows topic = true ↔
      ∃ val, lastValue keyword s.entries = some val ∧
        (ascii "*" ∈ listItems val ∨ topic ∈ listItems val) := by
    intro s hs
    refine s.allows_iff hassign hzero ?_ topic
    intro e he hek
    exact hlists _ (List.mem_map_of_mem hs) e he (hek ▸ hkey)
  have hname : ∀ s ∈ roleSections (declaredSections text),
      s.role.name = (roleHeader? s.header).getD [] := by
    intro s hs
    rw [s.name_role]
    exact List.take_of_length_le (hnames _ (List.mem_map_of_mem hs))
  -- Both lookups walk the same role sections and stop at the same one.
  generalize roleSections (declaredSections text) = sections at hallows hname
  clear hnames hlists
  induction sections with
  | nil => simp
  | cons s ss ih =>
    have ih' := ih (fun t ht => hallows t (List.mem_cons_of_mem _ ht))
      (fun t ht => hname t (List.mem_cons_of_mem _ ht))
    rw [List.map_cons, List.map_cons, List.find?_cons, List.find?_cons,
      hname s (List.mem_cons_self ..)]
    by_cases hn : (roleHeader? s.header).getD [] = name
    · simpa [hn] using hallows s (List.mem_cons_self ..)
    · rw [beq_eq_false_iff_ne.mpr hn, decide_eq_false hn]
      exact ih'

/-- For every policy text within the limits of the loader, and every host and topic, the
three scanning checks grant exactly what the text declares. -/
theorem rbacCan_iff_policyGrants (text : List UInt8) (h : WithinLimits text)
    (host topic : CStr) :
    (rbacCanSubscribe (loadPolicy text) host topic = true ↔
      PolicyGrants text (ascii "SUBSCRIBE") host topic) ∧
    (rbacCanPublish (loadPolicy text) host topic = true ↔
      PolicyGrants text (ascii "PUBLISH") host topic) ∧
    (rbacCanSet (loadPolicy text) host topic = true ↔
      PolicyGrants text (ascii "SET") host topic) := by
  refine ⟨?_, ?_, ?_⟩
  · exact h.rbacCan_iff_grants (by simp) Role.sub_assign (fun _ => rfl) host topic
  · exact h.rbacCan_iff_grants (by simp) Role.pub_assign (fun _ => rfl) host topic
  · exact h.rbacCan_iff_grants (by simp) Role.set_assign (fun _ => rfl) host topic

/-- A small policy: the first matching mapping and the last line for a key decide. -/
def deskText : List UInt8 := ascii
  "[role:DEFAULT]\nSUBSCRIBE = news\n[role:DESK]\nPUBLISH = a\nPUBLISH = news, *\n[map]\ndesk* = DESK\n"

theorem deskText_withinLimits : WithinLimits deskText := by
  refine ⟨?_, ?_, ?_, ?_, ?_, ?_, ?_, ?_⟩ <;> decide

theorem rbacCan_iff_policyGrants_desk :
    WithinLimits deskText ∧
    (rbacCanSubscribe (loadPolicy deskText) (ascii "desk1") (ascii "news") = true ↔
      PolicyGrants deskText (ascii "SUBSCRIBE") (ascii "desk1") (ascii "news")) ∧
    (rbacCanPublish (loadPolicy deskText) (ascii "desk1") (ascii "news") = true ↔
      PolicyGrants deskText (ascii "PUBLISH") (ascii "desk1") (ascii "news")) ∧
    (rbacCanSet (loadPolicy deskText) (ascii "desk1") (ascii "news") = true ↔
      PolicyGrants deskText (ascii "SET") (ascii "desk1") (ascii "news")) :=
  ⟨deskText_withinLimits,
    rbacCan_iff_policyGrants deskText deskText_withinLimits (ascii "desk1") (ascii "news")⟩

example : rbacCanPublish (loadPolicy deskText) (ascii "desk1") (ascii "news") = true := by decide

example : rbacCanSubscribe (loadPolicy deskText) (ascii "desk1") (ascii "news") = false := by decide

end AdMQ
