import AdMQ.Core.Block
import AdMQ.Core.CString

/-!
# Accesses to a block of memory

The functions of `string.h` on a block of fixed size. The result is `none` when an
access falls outside the block, so that a computation which succeeds has made none.

A block whose elements are optional also knows which of them were written; there a read
of one that was not has no result either.
-/

namespace Core

variable {α : Type*}

/-- `xs[i] = v`. -/
def store (xs : List α) (i : Nat) (v : α) : Option (List α) :=
  if i < xs.length then some (xs.set i v) else none

/-- `memcpy(&xs[i], ys, ..)` from another block. -/
def memcpy (xs : List α) (i : Nat) (ys : List α) : Option (List α) :=
  if i + ys.length ≤ xs.length then some (overwrite xs i ys) else none

/-- `memmove(&xs[dst], &xs[src], n)`. -/
def memmove (xs : List α) (dst src n : Nat) : Option (List α) :=
  if src + n ≤ xs.length then memcpy xs dst ((xs.drop src).take n) else none

/-- `strchr(block, c)`: the index of the byte, unless a NUL comes first. -/
def strchr (c : UInt8) : List UInt8 → Option (Option Nat)
  | [] => none
  | b :: rest =>
    if b = c then some (some 0)
    else if b = 0 then some none
    else (strchr c rest).map (Option.map (· + 1))

/-- What `strncpy(.., block, n)` reads: up to a NUL, and at most `n` bytes. -/
def loadString (n : Nat) (block : List UInt8) : Option CStr :=
  if 0 ∈ block.take n ∨ n ≤ block.length then some (cstr (block.take n)) else none

/-- The bytes that `strncpy` writes: the string, cut to the size or filled up with NULs. -/
def padded (n : Nat) (s : CStr) : List UInt8 := s.take n ++ List.replicate (n - s.length) 0

/-- `strncpy(dst, src, n)`. -/
def strncpy (dst : List UInt8) (src : CStr) (n : Nat) : Option (List UInt8) :=
  memcpy dst 0 (padded n src)

/-- `strcat(dst, src)`. -/
def strcat (dst : List UInt8) (src : CStr) : Option (List UInt8) :=
  if 0 ∈ dst then memcpy dst (cstr dst).length (src ++ [0]) else none

/-- `cells[i]` in a block that knows what was written. -/
def load (cells : List (Option α)) (i : Nat) : Option α := cells[i]?.join

/-- `strdup(cells)`: everything before the first NUL is read, and the NUL. -/
def strdup : List (Option UInt8) → Option CStr
  | [] => none
  | none :: _ => none
  | some b :: rest => if b = 0 then some [] else (strdup rest).map (b :: ·)

/-- A block of which only a front part was written. -/
def frontWritten (size : Nat) (xs : List α) : List (Option α) :=
  xs.map some ++ List.replicate (size - xs.length) none

/-! ## Accesses inside the block -/

theorem store_eq_some {xs : List α} {i : Nat} (h : i < xs.length) (v : α) :
    store xs i v = some (xs.set i v) := if_pos h

theorem memcpy_eq_some {xs : List α} {i : Nat} {ys : List α} (h : i + ys.length ≤ xs.length) :
    memcpy xs i ys = some (overwrite xs i ys) := if_pos h

theorem memmove_eq_some {xs : List α} {dst src n : Nat} (hsrc : src + n ≤ xs.length)
    (hdst : dst + n ≤ xs.length) :
    memmove xs dst src n = some (overwrite xs dst ((xs.drop src).take n)) := by
  rw [memmove, if_pos hsrc, memcpy_eq_some]
  rw [List.length_take, List.length_drop]
  omega

@[simp] theorem length_padded (n : Nat) (s : CStr) : (padded n s).length = n := by
  rw [padded, List.length_append, List.length_take, List.length_replicate]
  omega

theorem strncpy_eq_some {dst : List UInt8} {n : Nat} (h : n ≤ dst.length) (src : CStr) :
    strncpy dst src n = some (padded n src ++ dst.drop n) := by
  rw [strncpy, memcpy_eq_some (by rw [length_padded]; omega), overwrite, length_padded]
  simp

/-- In a block that holds a NUL the search ends, at the latest there. -/
theorem strchr_eq_some {c : UInt8} (hc : c ≠ 0) {block : List UInt8} (h : 0 ∈ block) :
    strchr c block = some ((cstr block).idxOf? c) := by
  induction block with
  | nil => cases h
  | cons b rest ih =>
    by_cases hb : b = c
    · have hne : (b != 0) = true := by rw [hb, bne_iff_ne]; exact hc
      rw [strchr, if_pos hb, cstr, List.takeWhile_cons_of_pos (p := (· != 0)) hne]
      simp [List.idxOf?, List.findIdx?_cons, hb]
    · rw [strchr, if_neg hb]
      by_cases hzero : b = 0
      · rw [if_pos hzero, cstr, hzero]
        simp [List.idxOf?]
      · have hne : (b != 0) = true := bne_iff_ne.mpr hzero
        have hrest : 0 ∈ rest := (List.mem_cons.mp h).resolve_left (Ne.symm hzero)
        rw [if_neg hzero, ih hrest, cstr, cstr, List.takeWhile_cons_of_pos (p := (· != 0)) hne]
        simp [List.idxOf?, List.findIdx?_cons, hb]

theorem loadString_eq_some {n : Nat} {block : List UInt8} (h : n ≤ block.length)
    (hnul : 0 ∉ block.take n) : loadString n block = some (block.take n) := by
  rw [loadString, if_pos (Or.inr h), cstr, List.takeWhile_eq_self_iff.mpr]
  intro b hb
  rw [bne_iff_ne]
  rintro rfl
  exact hnul hb

/-! ## What was written -/

/-- The element behind the front part is written next. -/
theorem store_frontWritten {size : Nat} {xs : List α} (h : xs.length < size) (x : α) :
    store (frontWritten size xs) xs.length (some x) = some (frontWritten size (xs ++ [x])) := by
  obtain ⟨n, hn⟩ : ∃ n, size - xs.length = n + 1 := ⟨size - xs.length - 1, by omega⟩
  have hn' : size - (xs ++ [x]).length = n := by
    rw [List.length_append, List.length_singleton]
    omega
  rw [store_eq_some, frontWritten, frontWritten, hn, hn', List.replicate_succ,
    List.set_append_right _ _ (List.length_map some).le, List.length_map, Nat.sub_self,
    List.set_cons_zero, List.map_append, List.append_assoc]
  · rfl
  · rw [frontWritten, List.length_append, List.length_map, List.length_replicate]
    omega

/-- The last element of the front part can be read. -/
theorem load_frontWritten (size : Nat) {xs : List α} (h : xs ≠ []) :
    load (frontWritten size xs) (xs.length - 1) = xs.getLast? := by
  have hlt : xs.length - 1 < (xs.map some).length := by
    rw [List.length_map]
    exact Nat.sub_one_lt_of_lt (List.length_pos_iff.mpr h)
  rw [load, frontWritten, List.getElem?_append_left hlt, List.getElem?_map,
    List.getLast?_eq_getElem?]
  cases xs[xs.length - 1]? <;> rfl

/-- A string that was written with its terminator is read up to there. -/
theorem strdup_terminated {s : CStr} (h : 0 ∉ s) (behind : List (Option UInt8)) :
    strdup (s.map some ++ some 0 :: behind) = some s := by
  induction s with
  | nil => rfl
  | cons b s ih =>
    rw [List.mem_cons, not_or] at h
    rw [List.map_cons, List.cons_append, strdup, if_neg (Ne.symm h.1), ih h.2]
    rfl

theorem strdup_frontWritten (size : Nat) {s : CStr} (h : 0 ∉ s) :
    strdup (frontWritten size (s ++ [0])) = some s := by
  rw [frontWritten, List.map_append, List.append_assoc]
  exact strdup_terminated h _

end Core
