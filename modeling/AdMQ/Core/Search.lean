import AdMQ.Core.CString

/-!
# Searching a string for another

`strstr` returns the rest of the string from the first occurrence on. Text that is
appended behind an occurrence does not change where it is found.
-/

namespace Core

/-- `strstr(s, needle)`: the string from the first occurrence on. -/
def strstr (needle : CStr) : CStr → Option CStr
  | [] => if needle = [] then some [] else none
  | b :: rest => if needle <+: b :: rest then some (b :: rest) else strstr needle rest

variable {needle s found : CStr}

/-- What is found begins with the string that was looked for. -/
theorem isPrefix_of_strstr (h : strstr needle s = some found) : needle <+: found := by
  induction s with
  | nil =>
    rw [strstr] at h
    split at h
    · next hnil =>
      rw [hnil]
      exact List.nil_prefix
    · cases h
  | cons b rest ih =>
    rw [strstr] at h
    split at h
    · next hhere =>
      obtain rfl := Option.some.inj h
      exact hhere
    · exact ih h

/-- It is the end of the string. -/
theorem isSuffix_of_strstr (h : strstr needle s = some found) : found <:+ s := by
  induction s with
  | nil =>
    rw [strstr] at h
    split at h
    · obtain rfl := Option.some.inj h
      exact List.suffix_refl _
    · cases h
  | cons b rest ih =>
    rw [strstr] at h
    split at h
    · obtain rfl := Option.some.inj h
      exact List.suffix_refl _
    · exact (ih h).trans (List.suffix_cons b rest)

/-- More text behind an occurrence is found with it. -/
theorem strstr_append (h : strstr needle s = some found) (more : CStr) :
    strstr needle (s ++ more) = some (found ++ more) := by
  induction s with
  | nil =>
    rw [strstr] at h
    split at h
    · next hnil =>
      obtain rfl := Option.some.inj h
      rw [hnil, List.nil_append]
      cases more with
      | nil => rfl
      | cons b more => exact if_pos List.nil_prefix
    · cases h
  | cons b rest ih =>
    rw [strstr] at h
    split at h
    · next hhere =>
      obtain rfl := Option.some.inj h
      exact if_pos (hhere.trans (List.prefix_append _ _))
    · next hhere =>
      -- The occurrence behind shows that the string is long enough to tell that none is here.
      have hlen : needle.length ≤ (b :: rest).length :=
        (isPrefix_of_strstr h).length_le.trans
          ((isSuffix_of_strstr h).length_le.trans (Nat.le_succ _))
      have hnone : ¬ needle <+: b :: rest ++ more := fun hmore =>
        hhere (List.prefix_of_prefix_length_le hmore (List.prefix_append _ _) hlen)
      exact (if_neg hnone).trans (ih h)

end Core
