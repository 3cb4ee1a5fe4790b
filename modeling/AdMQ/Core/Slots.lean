import Mathlib.Data.List.Basic

/-!
# Fixed arrays with a fill count

`Slots α cap` is a C array of `cap` elements together with the number of
elements in use. Slots at and beyond the count keep whatever was stored in them
last, so a reader that looks past the count sees stale data. `live` is the part
in use; every operation is described by its effect on `live`.
-/

namespace Core

/-- An array of capacity `cap` whose first `count` elements are in use. -/
structure Slots (α : Type*) (cap : Nat) where
  /-- The whole array, stale elements included. -/
  slots : List α
  /-- How many elements are in use. -/
  count : Nat
  /-- The array never changes its size. -/
  length_slots : slots.length = cap
  /-- The count never exceeds the capacity. -/
  count_le : count ≤ cap
  deriving DecidableEq

namespace Slots

variable {α : Type*} {cap : Nat}

/-- An array filled with one value and with no element in use. -/
def empty (cap : Nat) (fill : α) : Slots α cap :=
  ⟨List.replicate cap fill, 0, List.length_replicate, Nat.zero_le _⟩

/-- The elements in use. -/
def live (a : Slots α cap) : List α := a.slots.take a.count

/-- Forget every element in use; the array keeps its contents. -/
def clear (a : Slots α cap) : Slots α cap := { a with count := 0, count_le := Nat.zero_le _ }

/-- Store an element behind the last one in use. -/
def push (a : Slots α cap) (x : α) (h : a.count < cap) : Slots α cap :=
  ⟨a.slots.set a.count x, a.count + 1, by simp [a.length_slots], h⟩

/-- Overwrite the element at an index. -/
def put (a : Slots α cap) (i : Nat) (x : α) : Slots α cap :=
  ⟨a.slots.set i x, a.count, by simp [a.length_slots], a.count_le⟩

/-- The loop `for (k = i; n more times; k++) xs[k] = xs[k + 1]`. -/
def shiftDown : Nat → Nat → List α → List α
  | 0, _, xs => xs
  | n + 1, k, xs => shiftDown n (k + 1) (match xs[k + 1]? with
    | some x => xs.set k x
    | none => xs)

/-- The shift loop keeps the length of the array. -/
theorem length_shiftDown (n k : Nat) (xs : List α) : (shiftDown n k xs).length = xs.length := by
  induction n generalizing k xs with
  | zero => rfl
  | succ n ih =>
    rw [shiftDown, ih]
    cases xs[k + 1]? <;> simp

/-- Close the gap at index `i` by moving every later element in use one place down. -/
def removeAt (a : Slots α cap) (i : Nat) : Slots α cap :=
  ⟨shiftDown (a.count - 1 - i) i a.slots, a.count - 1,
    (length_shiftDown ..).trans a.length_slots, Nat.le_trans (Nat.sub_le ..) a.count_le⟩

/-- No element of a new array is in use. -/
@[simp] theorem live_empty (fill : α) : (empty cap fill).live = [] := by simp [live, empty]

@[simp] theorem count_empty (fill : α) : (empty cap fill).count = 0 := rfl

/-- Clearing resets the count only, which is enough to forget every element. -/
@[simp] theorem live_clear (a : Slots α cap) : a.clear.live = [] := by simp [live, clear]

@[simp] theorem count_clear (a : Slots α cap) : a.clear.count = 0 := rfl

/-- The elements in use are as many as the count says. -/
@[simp] theorem length_live (a : Slots α cap) : a.live.length = a.count := by
  simp [live, a.length_slots, a.count_le]

/-- A pushed element comes last. -/
@[simp] theorem live_push (a : Slots α cap) (x : α) (h : a.count < cap) :
    (a.push x h).live = a.live ++ [x] := by
  have hlen : a.count < a.slots.length := by rw [a.length_slots]; exact h
  simp [live, push, List.take_add_one, hlen, List.take_set_of_le]

@[simp] theorem count_push (a : Slots α cap) (x : α) (h : a.count < cap) :
    (a.push x h).count = a.count + 1 := rfl

/-- Writing an element changes it among those in use, if it is one of them. -/
@[simp] theorem live_put (a : Slots α cap) (i : Nat) (x : α) :
    (a.put i x).live = a.live.set i x := by
  simp [live, put, List.take_set]

/-- Writing back what an element holds changes nothing. -/
theorem put_self (a : Slots α cap) {i : Nat} {x : α} (h : a.slots[i]? = some x) :
    a.put i x = a := by
  obtain ⟨hi, rfl⟩ := List.getElem?_eq_some_iff.mp h
  cases a
  simp [put]

/-- The later of two writes to an element stays. -/
@[simp] theorem put_put (a : Slots α cap) (i : Nat) (x y : α) :
    (a.put i x).put i y = a.put i y := by
  simp [put]

/-- A written element is read back, in use or not. -/
theorem getElem?_slots_put (a : Slots α cap) {i : Nat} (h : i < cap) (x : α) :
    (a.put i x).slots[i]? = some x := by
  simp [put, a.length_slots, h]

/-- A pushed element stands where the count pointed. -/
theorem getElem?_slots_push (a : Slots α cap) (x : α) (h : a.count < cap) :
    (a.push x h).slots[a.count]? = some x := by
  simp [push, a.length_slots, h]

/-- Each pass of the shift loop reads an element that has not been overwritten yet. -/
theorem getElem?_shiftDown (n k : Nat) (xs : List α) (h : k + n < xs.length) (i : Nat) :
    (shiftDown n k xs)[i]? = if k ≤ i ∧ i < k + n then xs[i + 1]? else xs[i]? := by
  induction n generalizing k xs with
  | zero =>
    rw [shiftDown, if_neg (by omega)]
  | succ n ih =>
    have hk : k + 1 < xs.length := by omega
    rw [shiftDown, List.getElem?_eq_getElem hk]
    simp only
    rw [ih (k + 1) _ (by simp only [List.length_set]; omega)]
    by_cases hlo : k + 1 ≤ i ∧ i < k + 1 + n
    · have hold : k ≤ i ∧ i < k + (n + 1) := by omega
      rw [if_pos hlo, if_pos hold, List.getElem?_set_ne (by omega)]
    · rw [if_neg hlo]
      by_cases hik : i = k
      · subst i
        rw [if_pos (by omega), List.getElem?_set_self (by omega), List.getElem?_eq_getElem hk]
      · rw [if_neg (by omega), List.getElem?_set_ne (by omega)]

/-- Removing an index in use erases exactly that element and keeps the order of the others. -/
theorem live_removeAt (a : Slots α cap) {i : Nat} (hi : i < a.count) :
    (a.removeAt i).live = a.live.eraseIdx i := by
  have hlen : a.count ≤ a.slots.length := by rw [a.length_slots]; exact a.count_le
  apply List.ext_getElem?
  intro j
  simp only [live, removeAt, List.getElem?_take, List.getElem?_eraseIdx]
  rw [getElem?_shiftDown _ _ _ (by omega)]
  by_cases hj : j < a.count - 1
  · by_cases hij : j < i
    · rw [if_pos hj, if_neg (by omega), if_pos hij, if_pos (by omega)]
    · rw [if_pos hj, if_pos (by omega), if_neg hij, if_pos (by omega)]
  · rw [if_neg hj]
    split <;> rw [if_neg (by omega)]

end Slots

end Core
