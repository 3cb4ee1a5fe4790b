import AdMQ.Core.Memory
import AdMQ.Core.Scan

/-!
# Arrays of characters filled by `strncpy`

`strncpy(dst, src, sizeof(dst) - 1)` never writes the last byte of `dst`. Whether the
array holds a terminated string afterwards therefore depends, for a source that
fills the rest, on what the storage held before.
-/

namespace Core

/-- An array of `size + 1` bytes. -/
@[ext] structure CharArray (size : Nat) where
  bytes : List UInt8
  length_bytes : bytes.length = size + 1
  deriving DecidableEq

namespace CharArray

variable {size : Nat}

/-- Storage in which every byte is the same. -/
def filled (size : Nat) (b : UInt8) : CharArray size :=
  ⟨List.replicate (size + 1) b, List.length_replicate⟩

/-- The byte that `strncpy` does not reach. -/
def last (a : CharArray size) : UInt8 := a.bytes.getD size 0

theorem length_copied (a : CharArray size) (src : CStr) :
    (padded size src ++ a.bytes.drop size).length = size + 1 := by
  rw [List.length_append, length_padded, List.length_drop, a.length_bytes]
  omega

/-- `strncpy(dst, src, sizeof(dst) - 1)`. -/
def copy (a : CharArray size) (src : CStr) : CharArray size :=
  ⟨padded size src ++ a.bytes.drop size, a.length_copied src⟩

/-- All writes of the copy are inside of the array. -/
theorem strncpy_eq_copy (a : CharArray size) (src : CStr) :
    strncpy a.bytes src size = some (a.copy src).bytes :=
  strncpy_eq_some (by rw [a.length_bytes]; omega) src

/-- The array holds a terminated string. -/
def Holds (a : CharArray size) (s : CStr) : Prop := 0 ∈ a.bytes ∧ cstr a.bytes = s

instance (a : CharArray size) (s : CStr) : Decidable (a.Holds s) :=
  inferInstanceAs (Decidable (_ ∧ _))

theorem drop_bytes (a : CharArray size) : a.bytes.drop size = [a.last] := by
  have hlt : size < a.bytes.length := by rw [a.length_bytes]; omega
  have hnil : a.bytes.drop (size + 1) = [] := List.drop_of_length_le a.length_bytes.le
  rw [List.drop_eq_getElem_cons hlt, hnil, last, List.getD_eq_getElem?_getD,
    List.getElem?_eq_getElem hlt]
  rfl

theorem bytes_copy (a : CharArray size) (src : CStr) :
    (a.copy src).bytes = padded size src ++ [a.last] := by
  change padded size src ++ a.bytes.drop size = _
  rw [drop_bytes]

/-- The last byte stays what it was. -/
@[simp] theorem last_copy (a : CharArray size) (src : CStr) : (a.copy src).last = a.last := by
  rw [last, bytes_copy, List.getD_eq_getElem?_getD,
    List.getElem?_append_right (length_padded size src).le, length_padded, Nat.sub_self]
  rfl

/-- Nothing is left of an earlier copy. -/
@[simp] theorem copy_copy (a : CharArray size) (s t : CStr) : (a.copy s).copy t = a.copy t := by
  ext1
  rw [bytes_copy, bytes_copy, last_copy]

/-- Of several copies the last counts. -/
theorem foldl_copy (a : CharArray size) (sources : List CStr) (default : CStr) :
    sources.foldl copy (a.copy default) = a.copy (sources.getLast?.getD default) := by
  induction sources generalizing default with
  | nil => rfl
  | cons s sources ih =>
    rw [List.foldl_cons, copy_copy, ih]
    cases sources with
    | nil => rfl
    | cons t sources =>
      rw [List.getLast?_cons_cons, List.getLast?_eq_some_getLast (List.cons_ne_nil t sources)]
      rfl

/-- A copy leaves the longest prefix of the source that fits exactly if the source is shorter
than what is copied or the last byte is a terminator already. -/
theorem holds_copy_iff (a : CharArray size) {src : CStr} (hsrc : 0 ∉ src) :
    (a.copy src).Holds (src.take size) ↔ src.length < size ∨ a.last = 0 := by
  have htake : 0 ∉ src.take size := fun h => hsrc (List.mem_of_mem_take h)
  by_cases hshort : src.length < size
  · obtain ⟨n, hn⟩ : ∃ n, size - src.length = n + 1 := ⟨size - src.length - 1, by omega⟩
    have hbytes : (a.copy src).bytes = src.take size ++ 0 :: (List.replicate n 0 ++ [a.last]) := by
      rw [bytes_copy, padded, hn, List.replicate_succ, List.append_assoc, List.cons_append]
    refine iff_of_true ⟨?_, ?_⟩ (Or.inl hshort)
    · rw [hbytes]
      exact List.mem_append_right _ (List.mem_cons_self ..)
    · rw [hbytes, cstr_append_zero, cstr_eq_self htake]
  · have hbytes : (a.copy src).bytes = src.take size ++ [a.last] := by
      rw [bytes_copy, padded, Nat.sub_eq_zero_of_le (by omega), List.replicate_zero,
        List.append_nil]
    rw [or_iff_right hshort]
    refine ⟨fun h => ?_, fun h => ⟨?_, ?_⟩⟩
    · have hmem := h.1
      rw [hbytes, List.mem_append, List.mem_singleton] at hmem
      exact (hmem.resolve_left htake).symm
    · rw [hbytes, h]
      exact List.mem_append_right _ (List.mem_singleton_self _)
    · rw [hbytes, h, cstr_append_zero, cstr_eq_self htake]

/-- A source that leaves room for a terminator is held as it is. -/
theorem holds_copy (a : CharArray size) {src : CStr} (hsrc : 0 ∉ src) (hlen : src.length < size) :
    (a.copy src).Holds src := by
  have h := (a.holds_copy_iff hsrc).mpr (Or.inl hlen)
  rwa [List.take_of_length_le hlen.le] at h

end CharArray

end Core
