import AdMQ.Broker.Rbac.Isolation

/-!
# Comment lines of the policy file

A line is a comment if its first byte other than white space is a semicolon. The
reader of `rbac_init` tests this for every block that `fgets` returns, and a line of
more than 510 bytes comes in several blocks: those behind the first are read like
lines of their own. A comment can be taken out of every policy text without
consequence exactly if none of its blocks is a header or an entry.
-/

namespace AdMQ

open Core

/-- The first byte that is not white space is a semicolon. -/
def IsComment (l : CStr) : Prop := (l.dropWhile isspace).head? = some (byte ';')

instance (l : CStr) : Decidable (IsComment l) := inferInstanceAs (Decidable (_ = _))

/-- Taking the line out of a text never changes what is loaded. -/
def Inert (l : CStr) : Prop :=
  ∀ before after : List UInt8, EndsLine before →
    loadPolicy (before ++ (l ++ [newline]) ++ after) = loadPolicy (before ++ after)

/-- A line as `rbac_init` sees it, trimmed, that is neither a known header nor an entry. -/
structure IdleLine (trimmed : CStr) : Prop where
  not_role : trimmed.take 6 ≠ ascii "[role:"
  not_map : trimmed ≠ ascii "[map]"
  no_entry : isSkipped trimmed = false → isHeader trimmed = false → byte '=' ∉ trimmed

/-! ## Texts cut at a line -/

/-- The loader after the lines of a text. -/
def Loader.read (l : Loader) (text : List UInt8) : Loader := (readLines text).foldl Loader.line l

theorem Loader.read_append (l : Loader) {before : List UInt8} (h : EndsLine before)
    (rest : List UInt8) : l.read (before ++ rest) = (l.read before).read rest := by
  rw [Loader.read, readLines_append h, List.foldl_append]
  rfl

/-- A line in the middle of a text is read between the lines around it. -/
theorem loadPolicy_line (l : CStr) {before : List UInt8} (h : EndsLine before)
    (after : List UInt8) : loadPolicy (before ++ (l ++ [newline]) ++ after) =
      (((Loader.start.read before).read (l ++ [newline])).read after).policy := by
  have hline : EndsLine (before ++ (l ++ [newline])) :=
    Or.inr ⟨before ++ l, (List.append_assoc ..).symm⟩
  rw [← Loader.read_append _ h, ← Loader.read_append _ hline]
  rfl

theorem loadPolicy_around {before : List UInt8} (h : EndsLine before) (after : List UInt8) :
    loadPolicy (before ++ after) = ((Loader.start.read before).read after).policy := by
  rw [← Loader.read_append _ h]
  rfl

/-! ## What a single line can do -/

/-- A role prefix begins with the bracket of a header. -/
theorem isHeader_of_role {t : CStr} (h : t.take 6 = ascii "[role:") :
    isSkipped t = false ∧ isHeader t = true := by
  cases t with
  | nil => cases h
  | cons b t =>
    obtain rfl : b = byte '[' := (List.cons.inj h).1
    exact ⟨rfl, rfl⟩

theorem Loader.line_eq_header (l : Loader) {t : CStr} (hskip : isSkipped t = false)
    (hheader : isHeader t = true) : l.line t = l.header t := by
  simp only [Loader.line, hskip, hheader, Bool.false_eq_true, if_false, if_true]

/-- An idle line leaves the loader as it is. -/
theorem IdleLine.line_eq {t : CStr} (h : IdleLine t) (l : Loader) : l.line t = l := by
  rw [Loader.line]
  split
  · rfl
  · next hskip =>
    split
    · rw [Loader.header, if_neg h.not_role, if_neg h.not_map]
    · next hheader =>
      have hnone : keyValue? t = none :=
        if_neg (h.no_entry (Bool.not_eq_true _ ▸ hskip) (Bool.not_eq_true _ ▸ hheader))
      rw [Loader.keyLine, hnone]

/-- Everything that a line can do to the loader. -/
inductive LineEffect (l : Loader) (t : CStr) : Loader → Prop where
  /-- The line is ignored. -/
  | ignored : LineEffect l t l
  /-- A closed role header stores a role and makes it current. -/
  | role (hclosed : (roleHeader? t).isSome = true) (r : Role)
      (h : l.policy.roles.count < maxRoles) :
      LineEffect l t { policy := { l.policy with roles := l.policy.roles.push r h }
                       parsingMap := false
                       currentRole := some l.policy.roles.count }
  /-- The map begins, and no role is current. -/
  | map (ht : t = ascii "[map]") : LineEffect l t { l with parsingMap := true, currentRole := none }
  /-- A role header that stores no role still ends the map. -/
  | leave (ht : t.take 6 = ascii "[role:") : LineEffect l t { l with parsingMap := false }
  /-- An entry of the map. -/
  | mapping (hmap : l.parsingMap = true) (m : Mapping)
      (h : l.policy.mappings.count < maxMappings) :
      LineEffect l t { l with policy := { l.policy with mappings := l.policy.mappings.push m h } }
  /-- An entry of the current role. -/
  | assign {i : Nat} (hrole : l.currentRole = some i) (r : Role) :
      LineEffect l t { l with policy := { l.policy with roles := l.policy.roles.put i r } }

theorem Loader.header_effect (l : Loader) (t : CStr) : LineEffect l t (l.header t) := by
  unfold Loader.header
  split
  · next hrole =>
    split
    · next name hname =>
      split
      · next hroom => exact .role (by rw [hname]; rfl) _ hroom
      · exact .leave hrole
    · exact .leave hrole
  · split
    · next hmap => exact .map hmap
    · exact .ignored

theorem Loader.assignCurrent_effect (l : Loader) (t key val : CStr) :
    LineEffect l t (l.assignCurrent key val) := by
  unfold Loader.assignCurrent
  split
  · exact .ignored
  · next i hi =>
    split
    · exact .ignored
    · exact .assign hi _

theorem Loader.keyLine_effect (l : Loader) (t : CStr) : LineEffect l t (l.keyLine t) := by
  unfold Loader.keyLine
  split
  · exact .ignored
  · split
    · next hmap =>
      split
      · next hroom => exact .mapping hmap _ hroom
      · exact l.assignCurrent_effect t _ _
    · exact l.assignCurrent_effect t _ _

theorem Loader.line_effect (l : Loader) (t : CStr) : LineEffect l t (l.line t) := by
  unfold Loader.line
  split
  · exact .ignored
  · split
    · exact l.header_effect t
    · exact l.keyLine_effect t

namespace LineEffect

variable {l l' : Loader} {t : CStr}

/-- No line removes a role or a mapping. -/
theorem counts_le (h : LineEffect l t l') :
    l.policy.roles.count ≤ l'.policy.roles.count ∧
      l.policy.mappings.count ≤ l'.policy.mappings.count := by
  cases h with
  | role hclosed r hroom => exact ⟨Nat.le_succ _, Nat.le_refl _⟩
  | mapping hmap m hroom => exact ⟨Nat.le_refl _, Nat.le_succ _⟩
  | ignored | map | leave | assign => exact ⟨Nat.le_refl _, Nat.le_refl _⟩

/-- Without a current role, only a closed role header changes the roles. -/
theorem roles_eq (h : LineEffect l t l') (hrole : roleHeader? t = none)
    (hcurrent : l.currentRole = none) :
    l'.policy.roles = l.policy.roles ∧ l'.currentRole = none := by
  cases h with
  | role hclosed =>
    rw [hrole] at hclosed
    cases hclosed
  | assign hsome =>
    rw [hcurrent] at hsome
    cases hsome
  | map => exact ⟨rfl, rfl⟩
  | ignored | leave | mapping => exact ⟨rfl, hcurrent⟩

/-- Outside of the map, only its header changes the mappings or leads into it. -/
theorem mappings_eq (h : LineEffect l t l') (hmap : t ≠ ascii "[map]")
    (hout : l.parsingMap = false) :
    l'.policy.mappings = l.policy.mappings ∧ l'.parsingMap = false := by
  cases h with
  | map ht => exact absurd ht hmap
  | mapping hin =>
    rw [hout] at hin
    cases hin
  | role | leave => exact ⟨rfl, rfl⟩
  | ignored | assign => exact ⟨rfl, hout⟩

/-- Only a role header ends the map. -/
theorem parsingMap_eq (h : LineEffect l t l') (hrole : t.take 6 ≠ ascii "[role:")
    (hin : l.parsingMap = true) : l'.parsingMap = true := by
  cases h with
  | role hclosed =>
    obtain ⟨name, hname⟩ := Option.isSome_iff_exists.mp hclosed
    exact absurd (take_of_roleHeader? hname) hrole
  | leave ht => exact absurd ht hrole
  | map => rfl
  | ignored | mapping | assign => exact hin

end LineEffect

/-! ## What the lines of a piece of text can do -/

variable {lines : List CStr} {t : CStr}

theorem Loader.counts_le_lines (lines : List CStr) (l : Loader) :
    l.policy.roles.count ≤ (lines.foldl Loader.line l).policy.roles.count ∧
      l.policy.mappings.count ≤ (lines.foldl Loader.line l).policy.mappings.count := by
  induction lines generalizing l with
  | nil => exact ⟨Nat.le_refl _, Nat.le_refl _⟩
  | cons t lines ih =>
    have hstep := (l.line_effect t).counts_le
    have hrest := ih (l.line t)
    exact ⟨hstep.1.trans hrest.1, hstep.2.trans hrest.2⟩

theorem Loader.roles_eq_lines (hroles : ∀ t ∈ lines, roleHeader? t = none) {l : Loader}
    (hcurrent : l.currentRole = none) :
    (lines.foldl Loader.line l).policy.roles = l.policy.roles ∧
      (lines.foldl Loader.line l).currentRole = none := by
  induction lines generalizing l with
  | nil => exact ⟨rfl, hcurrent⟩
  | cons t lines ih =>
    rw [List.forall_mem_cons] at hroles
    have hstep := (l.line_effect t).roles_eq hroles.1 hcurrent
    have hrest := ih hroles.2 hstep.2
    exact ⟨hrest.1.trans hstep.1, hrest.2⟩

theorem Loader.mappings_eq_lines (hmaps : ascii "[map]" ∉ lines) {l : Loader}
    (hout : l.parsingMap = false) :
    (lines.foldl Loader.line l).policy.mappings = l.policy.mappings ∧
      (lines.foldl Loader.line l).parsingMap = false := by
  induction lines generalizing l with
  | nil => exact ⟨rfl, hout⟩
  | cons t lines ih =>
    rw [List.mem_cons, not_or] at hmaps
    have hstep := (l.line_effect t).mappings_eq (Ne.symm hmaps.1) hout
    have hrest := ih hmaps.2 hstep.2
    exact ⟨hrest.1.trans hstep.1, hrest.2⟩

/-- A closed role header among the lines leaves a role behind. -/
theorem Loader.count_pos_of_role (ht : t ∈ lines) (hrole : (roleHeader? t).isSome = true)
    (l : Loader) : 0 < (lines.foldl Loader.line l).policy.roles.count := by
  obtain ⟨front, back, rfl⟩ := List.append_of_mem ht
  obtain ⟨name, hname⟩ := Option.isSome_iff_exists.mp hrole
  obtain ⟨hskip, hheader⟩ := isHeader_of_role (take_of_roleHeader? hname)
  rw [List.foldl_append, List.foldl_cons, Loader.line_eq_header _ hskip hheader]
  refine Nat.lt_of_lt_of_le ?_ (Loader.counts_le_lines back _).1
  by_cases hroom : (front.foldl Loader.line l).policy.roles.count < maxRoles
  · rw [Loader.header_role _ hname hroom]
    exact Nat.succ_pos _
  · have hstep := (Loader.header_effect (front.foldl Loader.line l) t).counts_le.1
    have hmax : 0 < maxRoles := by decide
    omega

/-- The header of the map, with no closed role header behind it, leaves no role current. -/
theorem Loader.currentRole_eq_of_map (hmap : ascii "[map]" ∈ lines)
    (hroles : ∀ t ∈ lines, roleHeader? t = none) (l : Loader) :
    (lines.foldl Loader.line l).currentRole = none := by
  obtain ⟨front, back, rfl⟩ := List.append_of_mem hmap
  have hback : ∀ t ∈ back, roleHeader? t = none := fun t ht =>
    hroles t (List.mem_append_right _ (List.mem_cons_of_mem _ ht))
  rw [List.foldl_append, List.foldl_cons, Loader.line_eq_header _ rfl rfl, Loader.header_map]
  exact (Loader.roles_eq_lines hback rfl).2

/-- A role prefix, with no header of the map behind it, leaves the loader outside of the map. -/
theorem Loader.parsingMap_eq_of_role (ht : t ∈ lines) (hrole : t.take 6 = ascii "[role:")
    (hmaps : ascii "[map]" ∉ lines) (l : Loader) :
    (lines.foldl Loader.line l).parsingMap = false := by
  obtain ⟨front, back, rfl⟩ := List.append_of_mem ht
  simp only [List.mem_append, List.mem_cons, not_or] at hmaps
  obtain ⟨hskip, hheader⟩ := isHeader_of_role hrole
  rw [List.foldl_append, List.foldl_cons, Loader.line_eq_header _ hskip hheader]
  refine (Loader.mappings_eq_lines hmaps.2.2 ?_).2
  rw [Loader.header, if_pos hrole]
  split
  · split <;> rfl
  · rfl

/-- An entry in the map, with no role header in front of it, leaves a mapping behind. -/
theorem Loader.count_pos_of_entry (ht : t ∈ lines) (hskip : isSkipped t = false)
    (hheader : isHeader t = false) (hentry : byte '=' ∈ t)
    (hroles : ∀ t ∈ lines, t.take 6 ≠ ascii "[role:") {l : Loader} (hin : l.parsingMap = true) :
    0 < (lines.foldl Loader.line l).policy.mappings.count := by
  induction lines generalizing l with
  | nil => cases ht
  | cons x lines ih =>
    rw [List.forall_mem_cons] at hroles
    rw [List.foldl_cons]
    rcases List.mem_cons.mp ht with rfl | ht
    · refine Nat.lt_of_lt_of_le ?_ (Loader.counts_le_lines lines _).2
      have hline : l.line t = l.keyLine t := by
        simp only [Loader.line, hskip, hheader, Bool.false_eq_true, if_false]
      have hkey : keyValue? t = some _ := if_pos hentry
      rw [hline, Loader.keyLine, hkey]
      simp only [hin, if_true]
      by_cases hroom : l.policy.mappings.count < maxMappings
      · rw [dif_pos hroom]
        exact Nat.succ_pos _
      · rw [dif_neg hroom]
        have hstep := (l.assignCurrent_effect t (trimWhitespace (t.takeWhile (· != byte '=')))
          (trimWhitespace ((t.dropWhile (· != byte '=')).drop 1))).counts_le.2
        have hmax : 0 < maxMappings := by decide
        omega
    · exact ih ht hroles.2 ((l.line_effect x).parsingMap_eq hroles.1 hin)

/-! ## Inert lines -/

/-- Behind its header the loader is in the map. -/
theorem start_read_map : Loader.start.read (ascii "[map]\n") =
    { Loader.start with parsingMap := true } := by decide

theorem inert_of_idle {l : CStr} (h : ∀ piece ∈ readLines (l ++ [newline]), IdleLine piece) :
    Inert l := by
  intro before after hbefore
  have hidle (pieces : List CStr) (hpieces : ∀ piece ∈ pieces, IdleLine piece) (s : Loader) :
      pieces.foldl Loader.line s = s := by
    induction pieces with
    | nil => rfl
    | cons piece pieces ih =>
      rw [List.forall_mem_cons] at hpieces
      rw [List.foldl_cons, hpieces.1.line_eq, ih hpieces.2]
  have hread : (Loader.start.read before).read (l ++ [newline]) = Loader.start.read before :=
    hidle _ h _
  rw [loadPolicy_line l hbefore, loadPolicy_around hbefore, hread]

/-- Read on its own, an inert line stores no role. -/
theorem Inert.roleHeader?_eq {l : CStr} (h : Inert l) :
    ∀ piece ∈ readLines (l ++ [newline]), roleHeader? piece = none := by
  intro piece hpiece
  by_contra hsome
  have hload := h [] [] (Or.inl rfl)
  rw [loadPolicy_line l (Or.inl rfl), loadPolicy_around (Or.inl rfl)] at hload
  have hpos := Loader.count_pos_of_role hpiece (Option.isSome_iff_ne_none.mpr hsome) Loader.start
  have hcount := congrArg (fun p => p.roles.count) hload
  exact absurd hcount hpos.ne'

/-- The header of the map would make the current role miss an entry that sets or clears its
wildcard. -/
theorem Inert.map_notMem {l : CStr} (h : Inert l) : ascii "[map]" ∉ readLines (l ++ [newline]) := by
  intro hmap
  have hbefore : EndsLine (ascii "[role:A]\n") := Or.inr ⟨ascii "[role:A]", rfl⟩
  have hcurrent := Loader.currentRole_eq_of_map hmap h.roleHeader?_eq
    (Loader.start.read (ascii "[role:A]\n"))
  have hroles (after : List UInt8) (hafter : ∀ t ∈ readLines after, roleHeader? t = none) :
      (((Loader.start.read (ascii "[role:A]\n")).read (l ++ [newline])).read after).policy.roles =
        ((Loader.start.read (ascii "[role:A]\n")).read (l ++ [newline])).policy.roles :=
    (Loader.roles_eq_lines hafter hcurrent).1
  have hload (after : List UInt8) := h (ascii "[role:A]\n") after hbefore
  simp only [loadPolicy_line l hbefore, loadPolicy_around hbefore] at hload
  have hset := congrArg Policy.roles (hload (ascii "SET=*\n"))
  have hclear := congrArg Policy.roles (hload (ascii "SET=\n"))
  rw [hroles _ (by decide)] at hset hclear
  have hsame := hset.symm.trans hclear
  exact absurd (congrArg (fun r => r.live.map fun role => role.set.wildcard) hsame) (by decide)

/-- A role header would make the map miss an entry. -/
theorem Inert.take_ne {l : CStr} (h : Inert l) :
    ∀ piece ∈ readLines (l ++ [newline]), piece.take 6 ≠ ascii "[role:" := by
  intro piece hpiece hrole
  have hbefore : EndsLine (ascii "[map]\n") := Or.inr ⟨ascii "[map]", rfl⟩
  have hout := Loader.parsingMap_eq_of_role hpiece hrole h.map_notMem
    (Loader.start.read (ascii "[map]\n"))
  have hmappings (after : List UInt8) (hafter : ascii "[map]" ∉ readLines after) :
      (((Loader.start.read (ascii "[map]\n")).read (l ++ [newline])).read after).policy.mappings =
        ((Loader.start.read (ascii "[map]\n")).read (l ++ [newline])).policy.mappings :=
    (Loader.mappings_eq_lines hafter hout).1
  have hload (after : List UInt8) := h (ascii "[map]\n") after hbefore
  simp only [loadPolicy_line l hbefore, loadPolicy_around hbefore] at hload
  have hnone := congrArg Policy.mappings (hload [])
  have hone := congrArg Policy.mappings (hload (ascii "a=b\n"))
  rw [hmappings _ (by decide)] at hnone hone
  exact absurd (congrArg (fun m => m.count) (hnone.symm.trans hone)) (by decide)

/-- In the map, an inert line adds no entry. -/
theorem Inert.entry_notMem {l : CStr} (h : Inert l) {piece : CStr}
    (hpiece : piece ∈ readLines (l ++ [newline])) (hskip : isSkipped piece = false)
    (hheader : isHeader piece = false) : byte '=' ∉ piece := by
  intro hentry
  have hbefore : EndsLine (ascii "[map]\n") := Or.inr ⟨ascii "[map]", rfl⟩
  have hload := h (ascii "[map]\n") [] hbefore
  rw [loadPolicy_line l hbefore, loadPolicy_around hbefore] at hload
  have hin : (Loader.start.read (ascii "[map]\n")).parsingMap = true := by rw [start_read_map]
  have hpos := Loader.count_pos_of_entry hpiece hskip hheader hentry h.take_ne hin
  exact absurd (congrArg (fun p => p.mappings.count) hload) hpos.ne'

theorem inert_iff_idle (l : CStr) :
    Inert l ↔ ∀ piece ∈ readLines (l ++ [newline]), IdleLine piece := by
  refine ⟨fun h piece hpiece => ?_, inert_of_idle⟩
  refine ⟨h.take_ne piece hpiece, ?_, h.entry_notMem hpiece⟩
  rintro rfl
  exact h.map_notMem hpiece

/-- A comment that fits the buffer is one block, which is skipped. -/
theorem IsComment.idle {l : CStr} (h : IsComment l) (hl : newline ∉ l) (hlen : l.length ≤ 510) :
    ∀ piece ∈ readLines (l ++ [newline]), IdleLine piece := by
  have hblocks : readLines (l ++ [newline]) = [trim (cstr (l ++ [newline]))] := by
    rw [readLines, fgets_line hl (by omega) []]
    rfl
  intro piece hpiece
  rw [hblocks, List.mem_singleton] at hpiece
  have hhead : piece.head? = some (byte ';') := by
    rw [hpiece]
    exact head?_trim_cstr h (by decide) [newline]
  obtain ⟨rest, rfl⟩ : ∃ rest, piece = byte ';' :: rest := List.head?_eq_some_iff.mp hhead
  exact ⟨fun h => absurd (List.cons.inj h).1 (by decide),
    fun h => absurd (List.cons.inj h).1 (by decide), fun hskip => Bool.noConfusion hskip⟩

/-- A comment can be taken out of every text exactly if each block in which it is read is idle;
one of at most 510 bytes is a single such block. -/
theorem comment_inert_iff {l : CStr} (hl : newline ∉ l) (hcomment : IsComment l) :
    (Inert l ↔ ∀ piece ∈ readLines (l ++ [newline]), IdleLine piece) ∧
      (l.length ≤ 510 → Inert l) :=
  ⟨inert_iff_idle l, fun hlen => inert_of_idle (hcomment.idle hl hlen)⟩

theorem comment_inert_iff_note : Inert (ascii " ; access = *") :=
  (comment_inert_iff (by decide) (by decide)).2 (by decide)

/-- A comment whose second block is an entry. -/
def longComment : CStr := byte ';' :: List.replicate 510 (byte '-') ++ ascii "*=ADMIN"

/-- In the map, its second block gives every host the role of an administrator. -/
theorem longComment_not_inert :
    newline ∉ longComment ∧ IsComment longComment ∧
    rbacCanSubscribe (loadPolicy (ascii "[role:ADMIN]\nSUBSCRIBE=*\n[map]\n" ++
      (longComment ++ [newline]) ++ [])) (ascii "pc7") (ascii "alerts") = true ∧
    rbacCanSubscribe (loadPolicy (ascii "[role:ADMIN]\nSUBSCRIBE=*\n[map]\n" ++ []))
      (ascii "pc7") (ascii "alerts") = false := by
  decide +kernel

end AdMQ
