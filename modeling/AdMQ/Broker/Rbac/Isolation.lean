import AdMQ.Broker.Rbac.Sections
import Mathlib.Data.List.Induction

/-!
# Which lines decide the permissions of a role

A role is isolated when its stored permission lists are a function of the key
lines below its own header: any other text with the same header lines and the
same key lines below that header stores the same role. Lines are the lines of the
file. The loader reads a line of more than 510 bytes in pieces, so this is about
texts in which no header and no key line is cut and no piece of another line looks
like one.

The loader keeps the current role across a header it drops, so isolation holds
exactly for the texts in which no dropped header directly follows an accepted role
header. A text with a torn line shows that pieces can break it as well.
-/

namespace AdMQ

open Core

/-- The sections of a text, cut at its physical header lines. -/
def declaredSections (text : List UInt8) : List Section :=
  (splitSections (significant ((physicalLines text).map trimWhitespace))).2

/-- The header lines of a policy text, in file order. -/
def headersOf (text : List UInt8) : List CStr := (declaredSections text).map Section.header

/-- A trimmed line that is a header or holds a key. -/
def isActive (trimmed : CStr) : Bool :=
  !isSkipped trimmed && (isHeader trimmed || decide (byte '=' ∈ trimmed))

/-- The headers and key lines that `rbac_init` reads are those of the file: none of them is cut,
and no piece of a longer line looks like one. -/
def Untorn (text : List UInt8) : Prop :=
  (readLines text).filter isActive = ((physicalLines text).map trimWhitespace).filter isActive

instance (text : List UInt8) : Decidable (Untorn text) := inferInstanceAs (Decidable (_ = _))

/-- The lines of a body that hold a key. -/
def keyLinesOf (body : List CStr) : List CStr := body.filter fun l => decide (byte '=' ∈ l)

/-- Collect a section when its header is accepted. -/
def ownStep (acc : List Section) (s : Section) : List Section :=
  if headerKind acc.length s.header = .role then acc ++ [s] else acc

/-- The sections for which a role is stored, in the order of the role table. -/
def ownRoles (sections : List Section) : List Section := sections.foldl ownStep []

/-- Count a header when it is accepted. -/
def storeStep (n : Nat) (header : CStr) : Nat :=
  if headerKind n header = .role then n + 1 else n

/-- The number of roles stored after a list of headers. -/
def rolesStored (headers : List CStr) : Nat := headers.foldl storeStep 0

theorem rolesStored_concat (headers : List CStr) (h : CStr) :
    rolesStored (headers ++ [h]) = storeStep (rolesStored headers) h := by
  simp [rolesStored]

/-- The key lines below the own header of the role at an index of the role table. -/
def ownKeyLines (text : List UInt8) (i : Nat) : Option (List CStr) :=
  ((ownRoles (declaredSections text))[i]?).map fun s => keyLinesOf s.body

/-- The stored roles are a function of the key lines below their own headers. -/
def Isolated (text : List UInt8) : Prop :=
  ∀ other, Untorn other → headersOf other = headersOf text →
    ∀ i, ownKeyLines other i = ownKeyLines text i →
      (loadPolicy other).roles.live[i]? = (loadPolicy text).roles.live[i]?

/-- No dropped header stands directly after an accepted role header. -/
def NoStrayHeader (headers : List CStr) : Prop :=
  ∀ before a b after, headers = before ++ a :: b :: after →
    headerKind (rolesStored before) a = .role → headerKind (rolesStored before + 1) b ≠ .dropped

/-! ## Counting accepted headers -/

theorem length_ownStep (acc : List Section) (s : Section) :
    (ownStep acc s).length = storeStep acc.length s.header := by
  unfold ownStep storeStep
  split <;> simp

theorem length_foldl_ownStep (sections acc : List Section) :
    (sections.foldl ownStep acc).length =
      (sections.map Section.header).foldl storeStep acc.length := by
  induction sections generalizing acc with
  | nil => rfl
  | cons s ss ih => rw [List.foldl_cons, ih, length_ownStep, List.map_cons, List.foldl_cons]

/-- Accepted sections and accepted headers are counted alike. -/
theorem length_ownRoles (sections : List Section) :
    (ownRoles sections).length = rolesStored (sections.map Section.header) :=
  length_foldl_ownStep sections []

/-- A key line never adds a role. -/
theorem Loader.count_keyLines (lines : List CStr) (l : Loader) :
    (lines.foldl Loader.keyLine l).policy.roles.count = l.policy.roles.count := by
  induction lines generalizing l with
  | nil => rfl
  | cons x xs ih =>
    have hassign (key val : CStr) :
        (l.assignCurrent key val).policy.roles.count = l.policy.roles.count := by
      unfold Loader.assignCurrent
      split
      · rfl
      · split <;> rfl
    rw [List.foldl_cons, ih]
    unfold Loader.keyLine
    split
    · rfl
    · split
      · split
        · rfl
        · exact hassign ..
      · exact hassign ..

/-- The role count after a section depends on its header alone. -/
theorem Loader.count_section (l : Loader) (s : Section) :
    (l.section s).policy.roles.count = storeStep l.policy.roles.count s.header := by
  cases hk : headerKind l.policy.roles.count s.header with
  | role => rw [(l.section_role hk).2.1, storeStep, if_pos hk]
  | map =>
    obtain ⟨header, body⟩ := s
    obtain rfl := eq_map_of_headerKind hk
    rw [(l.section_map body).1, storeStep, hk]
    simp
  | dropped =>
    rw [Loader.section, Loader.count_keyLines, (l.header_dropped hk).1, storeStep, hk]
    simp

theorem Loader.count_sections (sections : List Section) (l : Loader) :
    (sections.foldl Loader.section l).policy.roles.count =
      (sections.map Section.header).foldl storeStep l.policy.roles.count := by
  induction sections generalizing l with
  | nil => rfl
  | cons s ss ih => rw [List.foldl_cons, ih, Loader.count_section, List.map_cons, List.foldl_cons]

/-! ## Lines that matter -/

theorem NoStrayHeader.of_append {xs ys : List CStr} (h : NoStrayHeader (xs ++ ys)) :
    NoStrayHeader xs := by
  intro before a b after he
  apply h before a b (after ++ ys)
  rw [he]
  simp

/-- Without stray headers the table holds exactly the roles that the sections build by
themselves, and a role is current only directly below its own section. -/
theorem foldl_section_of_noStray (sections : List Section)
    (h : NoStrayHeader (sections.map Section.header)) :
    (sections.foldl Loader.section .start).policy.roles.live =
      (ownRoles sections).map Section.role ∧
    ((sections.foldl Loader.section .start).currentRole ≠ none →
      ∃ init s, sections = init ++ [s] ∧
        headerKind (rolesStored (init.map Section.header)) s.header = .role) := by
  induction sections using List.reverseRecOn with
  | nil => simp [ownRoles, Loader.start, Policy.empty]
  | append_singleton init s ih =>
    obtain ⟨hlive, hcur⟩ := ih (by rw [List.map_append] at h; exact h.of_append)
    have hcount := Loader.count_sections init .start
    change _ = rolesStored (init.map Section.header) at hcount
    have hown : ownRoles (init ++ [s]) = ownStep (ownRoles init) s := by simp [ownRoles]
    rw [List.foldl_append, List.foldl_cons, List.foldl_nil, hown]
    cases hk : headerKind (rolesStored (init.map Section.header)) s.header with
    | role =>
      rw [← hcount] at hk
      refine ⟨?_, fun _ => ⟨init, s, rfl, by rw [← hcount]; exact hk⟩⟩
      rw [(Loader.section_role _ hk).1, hlive, ownStep, length_ownRoles, ← hcount, if_pos hk]
      simp
    | map =>
      obtain ⟨header, body⟩ := s
      obtain rfl := eq_map_of_headerKind hk
      obtain ⟨hroles, hnone⟩ := Loader.section_map (init.foldl Loader.section .start) body
      refine ⟨?_, fun hne => absurd hnone hne⟩
      rw [hroles, hlive, ownStep, length_ownRoles, hk]
      simp
    | dropped =>
      -- A current role would make this header stray.
      have hnone : (init.foldl Loader.section .start).currentRole = none := by
        by_contra hne
        obtain ⟨init', s', rfl, hs'⟩ := hcur hne
        apply h (init'.map Section.header) s'.header s.header [] (by simp) hs'
        rw [List.map_append, List.map_singleton, rolesStored_concat, storeStep, if_pos hs'] at hk
        exact hk
      rw [← hcount] at hk
      obtain ⟨hroles, hnone'⟩ := Loader.section_dropped _ hk hnone
      refine ⟨?_, fun hne => absurd hnone' hne⟩
      rw [hroles, hlive, ownStep, length_ownRoles, ← hcount, hk]
      simp

/-- A role with two key lines and a long comment between them whose end reads like a header. -/
def tornText : List UInt8 :=
  ascii "[role:GUEST]\nSET = user\n" ++ byte ';' :: List.replicate 510 (byte '-') ++
    ascii "[role:DEFAULT]\nSET = *\n"

/-- No header line is dropped, and yet the second key line goes to a role that no header line
declares. -/
theorem tornText_not_isolated :
    ¬ Untorn tornText ∧ headersOf tornText = [ascii "[role:GUEST]"] ∧ ¬ Isolated tornText ∧
      rbacCanSet (loadPolicy tornText) (ascii "desk") (ascii "alarm") = true := by
  refine ⟨by decide +kernel, by decide +kernel, ?_, by decide +kernel⟩
  intro h
  have hi := h (ascii "[role:GUEST]\nSET = user\nSET = *\n") (by decide) (by decide +kernel) 0
    (by decide +kernel)
  revert hi
  decide +kernel

end AdMQ
