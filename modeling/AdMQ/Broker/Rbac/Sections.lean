import AdMQ.Broker.Rbac.Loader

/-!
# Sections of a policy file

The trimmed lines of a policy file are cut at its header lines. `rbac_init` is
then a fold over sections, and the effect of one section depends on its header
alone: an accepted `[role:NAME]` header opens a new role for the lines below it,
`[map]` closes the current role, and any other header changes neither the role
table nor the current role.
-/

namespace AdMQ

open Core

/-- A header line and the lines below it, up to the next header. -/
structure Section where
  header : CStr
  body : List CStr
  deriving DecidableEq

/-- The lines that are neither blank nor comments. -/
def significant (lines : List CStr) : List CStr := lines.filter fun l => !isSkipped l

/-- Cut a list of lines at its headers; the lines above the first header come apart. -/
def splitSections : List CStr → List CStr × List Section
  | [] => ([], [])
  | l :: ls =>
    let (body, sections) := splitSections ls
    if isHeader l then ([], ⟨l, body⟩ :: sections) else (l :: body, sections)

/-- What a section does to the loader. -/
def Loader.section (l : Loader) (s : Section) : Loader :=
  s.body.foldl Loader.keyLine (l.header s.header)

/-- The effect of the lines below a role header on that role. -/
def Role.applyLine (r : Role) (line : CStr) : Role :=
  match keyValue? line with
  | none => r
  | some (key, val) => r.assign key val

/-- Skipped lines leave the loader as it is. -/
theorem foldl_line_significant (lines : List CStr) (l : Loader) :
    lines.foldl Loader.line l = (significant lines).foldl Loader.line l := by
  rw [significant, List.foldl_filter]
  congr 1
  funext l x
  cases hx : isSkipped x <;> simp [Loader.line, hx]

/-- Reading lines one by one is reading the first lines and then section by section. -/
theorem foldl_line_eq_sections (lines : List CStr) (h : ∀ x ∈ lines, isSkipped x = false)
    (l : Loader) : lines.foldl Loader.line l =
      (splitSections lines).2.foldl Loader.section
        ((splitSections lines).1.foldl Loader.keyLine l) := by
  induction lines generalizing l with
  | nil => rfl
  | cons x xs ih =>
    have hx := h x (List.mem_cons_self ..)
    rw [List.foldl_cons, ih (fun y hy => h y (List.mem_cons_of_mem _ hy))]
    cases hh : isHeader x <;> simp [splitSections, Loader.line, Loader.section, hx, hh]

/-- How `rbac_init` takes a header line when `n` roles are stored already. -/
inductive HeaderKind where
  /-- A `[role:NAME]` header for which a role is stored. -/
  | role
  /-- The `[map]` header. -/
  | map
  /-- An unknown, unclosed or surplus header. -/
  | dropped
  deriving DecidableEq

/-- The kind of a header line, given the number of roles stored so far. -/
def headerKind (n : Nat) (header : CStr) : HeaderKind :=
  if (roleHeader? header).isSome ∧ n < maxRoles then .role
  else if header = ascii "[map]" then .map
  else .dropped

/-- The map header is no role header. -/
theorem roleHeader?_map : roleHeader? (ascii "[map]") = none := by decide

/-- A role header is accepted exactly while the table has room. -/
theorem headerKind_role_iff (n : Nat) (header : CStr) :
    headerKind n header = .role ↔ ∃ name, roleHeader? header = some name ∧ n < maxRoles := by
  unfold headerKind
  split
  · next h => simpa [Option.isSome_iff_exists] using h
  · next h =>
    rw [Option.isSome_iff_exists] at h
    constructor
    · intro he
      split at he <;> cases he
    · rintro ⟨name, hn, hr⟩
      exact absurd ⟨⟨name, hn⟩, hr⟩ h

theorem headerKind_map (n : Nat) : headerKind n (ascii "[map]") = .map := by
  simp [headerKind, roleHeader?_map]

theorem eq_map_of_headerKind {n : Nat} {header : CStr} (h : headerKind n header = .map) :
    header = ascii "[map]" := by
  unfold headerKind at h
  split at h
  · cases h
  · split at h
    · assumption
    · cases h

/-- A name is found only behind the role prefix. -/
theorem take_of_roleHeader? {header name : CStr} (h : roleHeader? header = some name) :
    header.take 6 = ascii "[role:" := by
  unfold roleHeader? at h
  split at h
  · next hc => exact hc.1
  · cases h

/-- An accepted header stores a zeroed role and points at it. -/
theorem Loader.header_role (l : Loader) {header name : CStr} (h : roleHeader? header = some name)
    (hroom : l.policy.roles.count < maxRoles) :
    l.header header =
      { policy := { l.policy with roles := l.policy.roles.push (Role.zero (name.take 63)) hroom }
        parsingMap := false
        currentRole := some l.policy.roles.count } := by
  simp [Loader.header, take_of_roleHeader? h, h, hroom]

theorem Loader.header_map (l : Loader) :
    l.header (ascii "[map]") = { l with parsingMap := true, currentRole := none } := by
  have h : (ascii "[map]").take 6 ≠ ascii "[role:" := by decide
  simp [Loader.header, h]

/-- A dropped header keeps the tables and the current role; at most it leaves the map. -/
theorem Loader.header_dropped (l : Loader) {header : CStr}
    (h : headerKind l.policy.roles.count header = .dropped) :
    (l.header header).policy = l.policy ∧ (l.header header).currentRole = l.currentRole ∧
      ((l.header header).parsingMap = true → l.parsingMap = true) := by
  have hmap : header ≠ ascii "[map]" := by
    rintro rfl
    rw [headerKind_map] at h
    cases h
  have hrole : ¬ ∃ name, roleHeader? header = some name ∧ l.policy.roles.count < maxRoles := by
    rw [← headerKind_role_iff, h]
    simp
  unfold Loader.header
  split
  · cases hr : roleHeader? header with
    | none => simp
    | some name =>
      have hfull : ¬ l.policy.roles.count < maxRoles := fun hlt => hrole ⟨name, hr, hlt⟩
      simp [hfull]
  · exact ⟨rfl, rfl, id⟩

/-! ## Key lines -/

/-- Without a current role and outside the map, key lines are ignored. -/
theorem Loader.keyLines_idle (lines : List CStr) {l : Loader} (hm : l.parsingMap = false)
    (hc : l.currentRole = none) : lines.foldl Loader.keyLine l = l := by
  induction lines with
  | nil => rfl
  | cons x xs ih =>
    have hx : l.keyLine x = l := by
      unfold Loader.keyLine
      cases keyValue? x <;> simp [hm, hc, Loader.assignCurrent]
    rw [List.foldl_cons, hx, ih]

/-- In the map, key lines leave the role table and the control variables alone. -/
theorem Loader.keyLines_map (lines : List CStr) {l : Loader} (hc : l.currentRole = none) :
    (lines.foldl Loader.keyLine l).policy.roles = l.policy.roles ∧
    (lines.foldl Loader.keyLine l).currentRole = none ∧
    (lines.foldl Loader.keyLine l).parsingMap = l.parsingMap := by
  induction lines generalizing l with
  | nil => exact ⟨rfl, hc, rfl⟩
  | cons x xs ih =>
    have hx : (l.keyLine x).policy.roles = l.policy.roles ∧ (l.keyLine x).currentRole = none ∧
        (l.keyLine x).parsingMap = l.parsingMap := by
      unfold Loader.keyLine Loader.assignCurrent
      cases keyValue? x with
      | none => simp [hc]
      | some kv =>
        simp only [hc]
        split
        · split
          · simp
          · simp [hc]
        · simp [hc]
    obtain ⟨h1, h2, h3⟩ := ih hx.2.1
    exact ⟨h1.trans hx.1, h2, h3.trans hx.2.2⟩

/-- Below an accepted header, key lines rewrite exactly the current role. -/
theorem Loader.keyLines_role (lines : List CStr) {l : Loader} {i : Nat} {r : Role}
    (hm : l.parsingMap = false) (hc : l.currentRole = some i)
    (hr : l.policy.roles.slots[i]? = some r) :
    lines.foldl Loader.keyLine l = { l with policy := { l.policy with
      roles := l.policy.roles.put i (lines.foldl Role.applyLine r) } } := by
  induction lines generalizing l r with
  | nil => rw [List.foldl_nil, List.foldl_nil, Slots.put_self _ hr]
  | cons x xs ih =>
    have hi : i < maxRoles := by
      rw [← l.policy.roles.length_slots]
      exact (List.getElem?_eq_some_iff.mp hr).1
    have hx : l.keyLine x = { l with policy := { l.policy with
        roles := l.policy.roles.put i (r.applyLine x) } } := by
      unfold Loader.keyLine Role.applyLine
      cases keyValue? x with
      | none => simp only [Slots.put_self _ hr]
      | some kv => simp [hm, Loader.assignCurrent, hc, hr]
    rw [List.foldl_cons, hx, ih (by simpa using hm) (by simpa using hc)
      (r := r.applyLine x)
      (Slots.getElem?_slots_put _ hi _)]
    simp only [Slots.put_put, List.foldl_cons]

/-! ## Whole sections -/

/-- The start of `rbac_init` on empty tables. -/
def Loader.start : Loader := ⟨.empty, false, none⟩

/-- From the start, reading lines is reading the sections they make up. -/
theorem Loader.foldl_line_start (lines : List CStr) :
    lines.foldl Loader.line .start =
      (splitSections (significant lines)).2.foldl Loader.section .start := by
  have hs : ∀ x ∈ significant lines, isSkipped x = false := by
    intro x hx
    simpa [significant] using (List.mem_filter.mp hx).2
  rw [foldl_line_significant, foldl_line_eq_sections _ hs, Loader.keyLines_idle _ rfl rfl]

/-- The sections of a policy text, as `rbac_init` reads its lines. -/
def sectionsOf (text : List UInt8) : List Section :=
  (splitSections (significant (readLines text))).2

/-- Loading a text is folding over its sections. -/
theorem loadPolicy_eq_sections (text : List UInt8) :
    loadPolicy text = ((sectionsOf text).foldl Loader.section .start).policy :=
  congrArg Loader.policy (Loader.foldl_line_start (readLines text))

/-- The role that the lines of a section build under its own header. -/
def Section.role (s : Section) : Role :=
  s.body.foldl Role.applyLine (Role.zero (((roleHeader? s.header).getD []).take 63))

/-- An accepted section stores exactly its own role behind the roles stored before. -/
theorem Loader.section_role (l : Loader) {s : Section}
    (h : headerKind l.policy.roles.count s.header = .role) :
    (l.section s).policy.roles.live = l.policy.roles.live ++ [s.role] ∧
    (l.section s).policy.roles.count = l.policy.roles.count + 1 ∧
    (l.section s).policy.mappings = l.policy.mappings ∧
    (l.section s).policy.roles.slots[l.policy.roles.count]? = some s.role ∧
    (l.section s).currentRole = some l.policy.roles.count ∧
    (l.section s).parsingMap = false := by
  obtain ⟨name, hn, hroom⟩ := (headerKind_role_iff _ _).mp h
  have hr : s.role = s.body.foldl Role.applyLine (Role.zero (name.take 63)) := by
    simp [Section.role, hn]
  rw [Loader.section, l.header_role hn hroom,
    Loader.keyLines_role s.body rfl rfl (Slots.getElem?_slots_push _ _ hroom), ← hr]
  refine ⟨?_, rfl, rfl, Slots.getElem?_slots_put _ hroom _, rfl, rfl⟩
  simp [List.set_append_right]

/-- A map section leaves the roles alone and no role current. -/
theorem Loader.section_map (l : Loader) (body : List CStr) :
    (l.section ⟨ascii "[map]", body⟩).policy.roles = l.policy.roles ∧
    (l.section ⟨ascii "[map]", body⟩).currentRole = none := by
  obtain ⟨h1, h2, _⟩ := Loader.keyLines_map body (l := l.header (ascii "[map]"))
    (by rw [l.header_map])
  refine ⟨h1.trans ?_, h2⟩
  rw [l.header_map]

/-- Below a dropped header nothing reaches the roles while no role is current. -/
theorem Loader.section_dropped (l : Loader) {s : Section}
    (h : headerKind l.policy.roles.count s.header = .dropped) (hc : l.currentRole = none) :
    (l.section s).policy.roles = l.policy.roles ∧ (l.section s).currentRole = none := by
  obtain ⟨hp, hr, _⟩ := l.header_dropped h
  obtain ⟨h1, h2, _⟩ := Loader.keyLines_map s.body (hr.trans hc)
  exact ⟨h1.trans (by rw [hp]), h2⟩

end AdMQ
