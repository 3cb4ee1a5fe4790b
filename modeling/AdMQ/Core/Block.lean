import Mathlib.Data.List.Basic

/-!
# Writing into a block of fixed size

`overwrite xs i ys` is the block `xs` after `ys` was copied to it from index `i`
on, as `memcpy` and `memmove` do. A copy that fits leaves the size of the block
unchanged, and every other element keeps its place.
-/

namespace Core

variable {α : Type*}

/-- The block after `ys` was copied to it from index `i` on. -/
def overwrite (xs : List α) (i : Nat) (ys : List α) : List α :=
  xs.take i ++ ys ++ xs.drop (i + ys.length)

/-- A copy that fits keeps the size of the block. -/
theorem length_overwrite {xs : List α} {i : Nat} {ys : List α} (h : i + ys.length ≤ xs.length) :
    (overwrite xs i ys).length = xs.length := by
  simp only [overwrite, List.length_append, List.length_take, List.length_drop]
  omega

/-- The block up to the end of the copy. -/
theorem take_overwrite {xs : List α} {i : Nat} {ys : List α} (h : i ≤ xs.length) :
    (overwrite xs i ys).take (i + ys.length) = xs.take i ++ ys := by
  rw [overwrite, List.take_left' (by simp; omega)]

end Core
