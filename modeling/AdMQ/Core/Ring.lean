import Mathlib.Data.List.Rotate
import Mathlib.Data.Nat.ModEq

/-!
# Circular arrays

A bounded queue in an array keeps the index of its oldest element and how many
elements it holds. They lie from that index on and continue at the front of the
array behind its end.
-/

namespace Core

variable {α : Type*} {slots : List α} {head count : Nat}

/-- The `count` elements of a circular array from index `head` on. -/
def ringItems (slots : List α) (head count : Nat) : List α := (slots.rotate head).take count

@[simp] theorem ringItems_zero (slots : List α) (head : Nat) : ringItems slots head 0 = [] := by
  simp [ringItems]

theorem length_ringItems (h : count ≤ slots.length) :
    (ringItems slots head count).length = count := by
  simp [ringItems, h]

theorem getElem?_ringItems (h : count ≤ slots.length) {i : Nat} (hi : i < count) :
    (ringItems slots head count)[i]? = slots[(head + i) % slots.length]? := by
  rw [ringItems, List.getElem?_take_of_lt hi, List.getElem?_rotate (hi.trans_le h), Nat.add_comm]

/-- Two places of the array are different when their distances from the head are. -/
theorem ringIndex_ne {n i : Nat} (hi : i < count) (h : count < n) :
    (head + count) % n ≠ (head + i) % n := by
  intro heq
  have hmod : count % n = i % n := Nat.ModEq.add_left_cancel' head heq
  rw [Nat.mod_eq_of_lt h, Nat.mod_eq_of_lt (hi.trans h)] at hmod
  omega

/-- A store behind the last element appends it and overwrites none of the others. -/
theorem ringItems_set (h : count < slots.length) (x : α) :
    ringItems (slots.set ((head + count) % slots.length) x) head (count + 1) =
      ringItems slots head count ++ [x] := by
  have hpos : 0 < slots.length := by omega
  have hset : count + 1 ≤ (slots.set ((head + count) % slots.length) x).length := by
    rw [List.length_set]
    exact h
  apply List.ext_getElem?
  intro i
  rcases Nat.lt_trichotomy i count with hi | rfl | hi
  · rw [getElem?_ringItems hset (by omega), List.length_set,
      List.getElem?_set_ne (ringIndex_ne hi h), List.getElem?_append_left
        (by rw [length_ringItems h.le]; exact hi), getElem?_ringItems h.le hi]
  · rw [getElem?_ringItems hset (by omega), List.length_set,
      List.getElem?_set_self (Nat.mod_lt _ hpos), List.getElem?_append_right
        (by rw [length_ringItems h.le]), length_ringItems h.le, Nat.sub_self]
    rfl
  · rw [List.getElem?_eq_none, List.getElem?_eq_none]
    · rw [List.length_append, length_ringItems h.le, List.length_singleton]
      omega
    · rw [length_ringItems hset]
      omega

/-- The element at the head is the first; the others are those from the next index on. -/
theorem ringItems_succ (h : count < slots.length) {x : α} (hx : slots[head]? = some x) :
    ringItems slots head (count + 1) = x :: ringItems slots ((head + 1) % slots.length) count := by
  obtain ⟨hhead, -⟩ := List.getElem?_eq_some_iff.mp hx
  apply List.ext_getElem?
  intro i
  cases i with
  | zero =>
    rw [getElem?_ringItems h (by omega), Nat.add_zero, Nat.mod_eq_of_lt hhead, hx]
    rfl
  | succ i =>
    rw [List.getElem?_cons_succ]
    by_cases hi : i < count
    · rw [getElem?_ringItems h (by omega), getElem?_ringItems h.le hi, Nat.mod_add_mod]
      congr 2
      omega
    · rw [List.getElem?_eq_none, List.getElem?_eq_none]
      · rw [length_ringItems h.le]
        omega
      · rw [length_ringItems h]
        omega

end Core
