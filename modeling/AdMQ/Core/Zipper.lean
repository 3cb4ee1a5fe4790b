import Mathlib.Data.List.Basic

/-!
# Text with a cursor

A text is split at its cursor into the part left of it and the part right of it, both
in reading order. Moving the cursor leaves the text alone; an edit changes it at the
cursor only.
-/

namespace Core

/-- The text left of the cursor and the text right of it. -/
@[ext]
structure Zipper (α : Type*) where
  left : List α
  right : List α
  deriving DecidableEq

namespace Zipper

variable {α : Type*} (z : Zipper α)

/-- The whole text. -/
def text : List α := z.left ++ z.right

/-- A text with the cursor behind it. -/
def atEnd (s : List α) : Zipper α := ⟨s, []⟩

/-- A letter typed at the cursor. -/
def insert (a : α) : Zipper α := ⟨z.left ++ [a], z.right⟩

/-- The letter left of the cursor goes away. -/
def backspace : Zipper α := ⟨z.left.dropLast, z.right⟩

def moveLeft : Zipper α :=
  match z.left.getLast? with
  | none => z
  | some a => ⟨z.left.dropLast, a :: z.right⟩

def moveRight : Zipper α :=
  match z.right with
  | [] => z
  | a :: right => ⟨z.left ++ [a], right⟩

/-- The text of a given length with the cursor at an index. -/
def ofIndex (s : List α) (i : Nat) : Zipper α := ⟨s.take i, s.drop i⟩

/-- The text and the index of the cursor determine the zipper. -/
theorem ofIndex_text : ofIndex z.text z.left.length = z := by
  rw [ofIndex, text, List.take_left, List.drop_left]

/-- Moving the cursor to the left keeps the text. -/
theorem text_moveLeft : z.moveLeft.text = z.text := by
  rw [moveLeft]
  split
  · rfl
  · next a hlast =>
    obtain ⟨front, hleft⟩ := List.getLast?_eq_some_iff.mp hlast
    simp [text, hleft]

/-- Moving the cursor to the right keeps the text. -/
theorem text_moveRight : z.moveRight.text = z.text := by
  rw [moveRight]
  split
  · rfl
  · next a right hright => simp [text, hright]

/-- An insertion adds its element and loses none. -/
theorem mem_text_insert {a b : α} : b ∈ (z.insert a).text ↔ b = a ∨ b ∈ z.text := by
  simp only [text, insert, List.mem_append, List.mem_singleton]
  tauto

/-- Erasing adds no element. -/
theorem mem_text_of_backspace {b : α} (h : b ∈ z.backspace.text) : b ∈ z.text := by
  rw [text, backspace, List.mem_append] at h
  exact List.mem_append.mpr (h.imp_left fun hleft => List.dropLast_subset _ hleft)

end Zipper

end Core
